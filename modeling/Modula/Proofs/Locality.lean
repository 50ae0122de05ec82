import Modula.Proofs.Lexemes

/-!
# Symbols are read from their own text

Where a symbol ends is told by what comes behind it: the rules look one or two characters ahead. It
makes no difference to a symbol, though, if the text ends behind it, or if it goes on with a line
feed, whatever came there before. Nor does it if the next character stays, or is overwritten with a
space; only a comment up to the end of its line needs the line feed. A symbol that nothing came
behind, such as a literal without its closing quote, still has nothing behind it then.

Nor does it matter where the symbol stands, except for the places of its faults. So a symbol is
compared by its outline, which has of its faults what is told alike at both positions: their codes
at any two, and all there is to them at two that have the same line and column.
-/

namespace Modula

/-- The text is over, or goes on with a line feed. -/
inductive Breaks : List Char → Prop
  | ended : Breaks []
  | line (more : List Char) : Breaks ('\n' :: more)

/-- What comes behind a symbol instead of what came there before. -/
structure Replaces (back' back : List Char) : Prop where
  breaks : Breaks back'
  nil : back = [] → back' = []

/-- What may come behind a symbol instead of what came there before, for all that the rules look
at. -/
structure PassesFor (back' back : List Char) : Prop where
  head : ∀ c ∈ back'.head?, c = '\n' ∨ c = ' ' ∨ c ∈ back.head?
  line : back.head?.any (· != '\n') = false → back'.head?.any (· != '\n') = false
  point : Number.startsFraction back = false → Number.startsFraction back' = false
  nil : back = [] → back' = []

variable {u back back' : List Char}

theorem Replaces.passesFor (h : Replaces back' back) : PassesFor back' back := by
  obtain ⟨hbreaks, hnil⟩ := h
  cases hbreaks with
  | ended => exact ⟨by simp, by simp, fun _ => rfl, hnil⟩
  | line more => exact ⟨by simp, fun _ => rfl, fun _ => rfl, hnil⟩

theorem Replaces.head?_ne (h : Replaces back' back) : back'.head? ≠ some '\x27' := by
  cases h.breaks <;> simp

/-- What the next character is not it does not become, unless it is a line feed or a space. -/
theorem PassesFor.any_head? {f : Char → Bool} (h : PassesFor back' back) (hline : f '\n' = false)
    (hspace : f ' ' = false) (hback : back.head?.any f = false) : back'.head?.any f = false := by
  rw [Option.any_eq_false] at hback ⊢
  intro c hc
  obtain rfl | rfl | hc := h.head c hc
  · simp [hline]
  · simp [hspace]
  · exact hback c hc

/-- A run of characters that all of `u` belongs to, and no more, does not go on over something else
that the next character does not belong to either. -/
theorem takeWhile_append_of_any_head? {f : Char → Bool}
    (hhead : back.head?.any f = false → back'.head?.any f = false)
    (h : ((u ++ back).takeWhile f).length = u.length) :
    (u ++ back).takeWhile f = u ∧ (u ++ back').takeWhile f = u := by
  have hstop (x : List Char) : x.takeWhile f = [] ↔ x.head?.any f = false := by
    cases x with
    | nil => simp
    | cons c x => cases hc : f c <;> simp [hc]
  have hrun : (u ++ back).takeWhile f = u := by
    have hstart : (u ++ back).takeWhile f <+: u ++ back := List.takeWhile_prefix f
    have hle := Nat.le_of_eq h
    exact (List.prefix_of_prefix_length_le hstart (List.prefix_append u back) hle).eq_of_length h
  have hall : ∀ c ∈ u, f c = true := by
    rw [← hrun]
    exact List.all_eq_true.1 List.all_takeWhile
  have hback : back.takeWhile f = [] := by
    rwa [List.takeWhile_append_of_pos hall, List.append_right_eq_self] at hrun
  refine ⟨hrun, ?_⟩
  rw [List.takeWhile_append_of_pos hall, (hstop back').2 (hhead ((hstop back).1 hback)),
    List.append_nil]

/-- What the next character is makes no difference to what it is not, if something comes instead
that passes for it. -/
theorem any_head?_append {f : Char → Bool} (hb : PassesFor back' back) (hline : f '\n' = false)
    (hspace : f ' ' = false) (h : u = [] → back.head?.any f = false) :
    (u ++ back').head?.any f = (u ++ back).head?.any f := by
  cases u with
  | nil =>
    rw [List.nil_append, List.nil_append, h rfl]
    exact hb.any_head? hline hspace (h rfl)
  | cons c u => rfl

/-- A next character that is neither a line feed nor a space was the next one before. -/
theorem PassesFor.exists_cons {c : Char} {body : List Char} (hb : PassesFor back' back)
    (hline : c ≠ '\n') (hspace : c ≠ ' ') (h : u ++ back' = c :: body) :
    ∃ later, u ++ back = c :: later := by
  cases u with
  | nil =>
    have hhead : c ∈ back'.head? := by
      rw [List.nil_append] at h
      rw [h]
      rfl
    obtain rfl | rfl | hc := hb.head c hhead
    · exact absurd rfl hline
    · exact absurd rfl hspace
    · exact List.head?_eq_some_iff.1 hc
  | cons d u =>
    rw [List.cons_append] at h
    exact ⟨u ++ back, by rw [List.cons_append, (List.cons.inj h).1]⟩

theorem any_head?_of_ne {a b : Char} {cs : List Char} (ha : ∀ later, cs = a :: later → False)
    (hb : ∀ later, cs = b :: later → False) :
    cs.head?.any (fun c => c = a || c = b) = false := by
  cases cs with
  | nil => rfl
  | cons c cs =>
    simp only [List.head?_cons, Option.any_some, Bool.or_eq_false_iff, decide_eq_false_iff_not]
    exact ⟨fun hc => ha cs (by rw [hc]), fun hc => hb cs (by rw [hc])⟩

/-- The codes of some faults. -/
def codes (ds : List Diagnostic) : List Code := ds.map Diagnostic.code

/-- The positions have the same line and column. -/
structure Position.Level (p q : Position) : Prop where
  line_eq : p.line = q.line
  column_eq : p.column = q.column

theorem Position.Level.next {p q : Position} (h : p.Level q) (c : Char) :
    (p.next c).Level (q.next c) := by
  unfold Position.next
  split
  · exact ⟨congrArg (· + 1) h.line_eq, rfl⟩
  · exact ⟨h.line_eq, congrArg (· + c.utf8Size) h.column_eq⟩

theorem Position.Level.after {p q : Position} (h : p.Level q) (cs : List Char) :
    (p.after cs).Level (q.after cs) := by
  induction cs generalizing p q with
  | nil => exact h
  | cons c cs ih => exact ih (h.next c)

/-- The fault, as if it had been found at another position. -/
def Diagnostic.moveTo (d : Diagnostic) (p : Position) : Diagnostic :=
  { d with line := p.line, column := p.column }

/-- What is told of faults, and which positions may stand for each other: the same is told of a
fault at either. -/
structure View where
  Answer : Type
  tells : Diagnostic → Answer
  StandsFor : Position → Position → Prop
  next : ∀ {p q}, StandsFor p q → ∀ c, StandsFor (p.next c) (q.next c)
  tells_moveTo : ∀ {p q}, StandsFor p q → ∀ d : Diagnostic, tells (d.moveTo q) = tells (d.moveTo p)

namespace View

/-- The codes of faults, which are the same at all positions. -/
def ofCodes : View := ⟨Code, Diagnostic.code, fun _ _ => True, fun _ _ => trivial, fun _ _ => rfl⟩

/-- All there is to faults, which is the same at positions with the same line and column. -/
def exact : View where
  Answer := Diagnostic
  tells := id
  StandsFor := Position.Level
  next := Position.Level.next
  tells_moveTo h d := by rw [Diagnostic.moveTo, Diagnostic.moveTo, h.line_eq, h.column_eq]

variable (v : View) {p q : Position}

theorem after (h : v.StandsFor p q) (cs : List Char) : v.StandsFor (p.after cs) (q.after cs) := by
  induction cs generalizing p q with
  | nil => exact h
  | cons c cs ih => exact ih (v.next h c)

/-- What is told of some faults. -/
def told (ds : List Diagnostic) : List v.Answer := ds.map v.tells

theorem told_append (ds es : List Diagnostic) : v.told (ds ++ es) = v.told ds ++ v.told es :=
  List.map_append

theorem told_moveTo (h : v.StandsFor p q) (d : Diagnostic) :
    v.told [d.moveTo q] = v.told [d.moveTo p] := congrArg (fun x => [x]) (v.tells_moveTo h d)

theorem told_ofPosition (h : v.StandsFor p q) (code : Code) :
    v.told [.ofPosition code q] = v.told [.ofPosition code p] := v.told_moveTo h (.new code 0 0)

end View

/-- A stretch with what is told of its faults. -/
def Stretch.outline (v : View) (s : Stretch) : Nat × List v.Answer := (s.length, v.told s.reports)

/-- A symbol with what is told of its faults. -/
def Reading.outline (v : View) (r : Reading) : Token × Nat × List v.Answer :=
  (r.token, r.length, v.told r.reports)

/-! ## Words -/

theorem Word.outline_read_append {v : View} {o : LexicalOptions} {p q : Position} {c : Char}
    (hpq : v.StandsFor p q) (hb : PassesFor back' back)
    (h : (Word.read o p c (u ++ back)).length = u.length + 1) :
    (Word.read o q c (u ++ back')).outline v = (Word.read o p c (u ++ back)).outline v := by
  have hline : continues o '\n' = false := by simp [continues, LexicalOptions.allowsSeparator]
  have hspace : continues o ' ' = false := by simp [continues, LexicalOptions.allowsSeparator]
  obtain ⟨hold, hnew⟩ :=
    takeWhile_append_of_any_head? (hb.any_head? hline hspace) (Nat.succ_inj.1 h)
  unfold Word.read Reading.outline
  simp only [hold, hnew]
  split
  · exact congrArg (fun told => (_, _, told)) (v.told_moveTo hpq
      { Diagnostic.new .malformedIdentifier 0 0 with lexeme := String.ofList (c :: u) })
  · rfl

/-! ## Numbers -/

/-- A rule that is not impressed by what is behind the characters it takes, if something comes
there instead that passes for it, nor by where these characters stand. -/
def Rule.IsLocal (v : View) (f : Rule) : Prop :=
  ∀ p q u back back', v.StandsFor p q → PassesFor back' back →
    (f p (u ++ back)).length ≤ u.length → (f q (u ++ back')).outline v = (f p (u ++ back)).outline v

namespace Rule.IsLocal

variable {v : View}

theorem skip (n : Nat) : (Rule.skip n).IsLocal v := fun _ _ _ _ _ _ _ _ => rfl

theorem andThen {f g : Rule} (hf : f.IsLocal v) (hg : g.IsLocal v) : (f.andThen g).IsLocal v := by
  intro p q u back back' hpq hb h
  rw [Rule.length_andThen] at h
  have hfo := hf p q u back back' hpq hb (by omega)
  have hlength : (f q (u ++ back')).length = (f p (u ++ back)).length := congrArg Prod.fst hfo
  have htold : v.told (f q (u ++ back')).reports = v.told (f p (u ++ back)).reports :=
    congrArg Prod.snd hfo
  -- both rules stop inside `u`, so the second one starts on the same characters
  have hdrop (x : List Char) : (u ++ x).drop (f p (u ++ back)).length =
      u.drop (f p (u ++ back)).length ++ x := List.drop_append_of_le_length (by omega)
  have htake (x : List Char) : (u ++ x).take (f p (u ++ back)).length =
      u.take (f p (u ++ back)).length := List.take_append_of_le_length (by omega)
  have hgo := hg (p.after ((u ++ back).take (f p (u ++ back)).length))
    (q.after ((u ++ back').take (f p (u ++ back)).length))
    (u.drop (f p (u ++ back)).length) back back' (by
      rw [htake, htake]
      exact v.after hpq _) hb (by
      rw [← hdrop, List.length_drop]
      omega)
  unfold Stretch.outline Rule.andThen at *
  dsimp only
  rw [hlength, hdrop, hdrop]
  rw [Prod.mk.injEq] at hgo
  rw [v.told_append, v.told_append, htold, hgo.1, hgo.2]

/-- A rule that goes by the next character, where the character is taken if it is of the right
kind. -/
theorem ofHead {f g h : Rule} {k : Char → Bool} (hline : k '\n' = false)
    (hspace : k ' ' = false) (hf : f.IsLocal v) (hg : g.IsLocal v)
    (htakes : ∀ p cs, cs.head?.any k = true → 0 < (f p cs).length)
    (heq : ∀ p cs, h p cs = if cs.head?.any k then f p cs else g p cs) : h.IsLocal v := by
  intro p q u back back' hpq hb hle
  have hhead : (u ++ back').head?.any k = (u ++ back).head?.any k := by
    refine any_head?_append hb hline hspace ?_
    rintro rfl
    refine Bool.eq_false_iff.2 fun hback => ?_
    rw [List.nil_append, heq, if_pos hback] at hle
    exact absurd hle (Nat.not_le.2 (htakes p back hback))
  rw [heq] at hle
  rw [heq, heq, hhead]
  split at hle
  · next hpos =>
    rw [if_pos hpos, if_pos hpos]
    exact hf p q u back back' hpq hb hle
  · next hneg =>
    rw [if_neg hneg, if_neg hneg]
    exact hg p q u back back' hpq hb hle

end Rule.IsLocal

namespace Number

theorem Base.isDigit_lineFeed (b : Base) : b.isDigit '\n' = false := by
  cases b <;> decide

theorem Base.isDigit_space (b : Base) : b.isDigit ' ' = false := by
  cases b <;> decide

theorem startsWithDigit_eq (b : Base) (cs : List Char) :
    startsWithDigit b cs = cs.head?.any b.isDigit := by
  cases cs <;> rfl

/-- Whether there is a digit is told by the first character. -/
theorem startsWithDigit_append {b : Base} (hb : PassesFor back' back)
    (h : u = [] → startsWithDigit b back = false) :
    startsWithDigit b (u ++ back') = startsWithDigit b (u ++ back) := by
  rw [startsWithDigit_eq, startsWithDigit_eq]
  exact any_head?_append hb b.isDigit_lineFeed b.isDigit_space fun hu =>
    startsWithDigit_eq b back ▸ h hu

theorem le_digitExtent (b : Base) (n : Nat) (cs : List Char) : n ≤ (digitExtent b n cs).1 := by
  induction cs generalizing n with
  | nil => exact Nat.le_refl _
  | cons c cs ih =>
    have h := ih (n + 1)
    rw [digitExtent]
    split
    · omega
    · split
      · split
        · omega
        · exact Nat.le_succ n
      · exact Nat.le_refl n

theorem lt_digitExtent {b : Base} {cs : List Char} (n : Nat) (h : startsWithDigit b cs = true) :
    n < (digitExtent b n cs).1 := by
  cases cs with
  | nil => cases h
  | cons c cs =>
    rw [digitExtent, if_pos (show b.isDigit c = true from h)]
    exact le_digitExtent b (n + 1) cs

/-- A run of digits goes on with a digit or with an apostrophe. -/
def goesOn (b : Base) (c : Char) : Bool := b.isDigit c || c = '\x27'

theorem digitExtent_of_any_head? {b : Base} {cs : List Char} (n : Nat)
    (h : cs.head?.any (goesOn b) = false) : digitExtent b n cs = (n, false) := by
  cases cs with
  | nil => rfl
  | cons c cs =>
    obtain ⟨hdigit, hapostrophe⟩ : b.isDigit c = false ∧ c ≠ '\x27' := by simpa [goesOn] using h
    rw [digitExtent, if_neg (by simp [hdigit]), if_neg hapostrophe]

/-- A run without characters does not go on. -/
theorem any_head?_of_digitExtent_le {b : Base} {n : Nat} {cs : List Char}
    (h : (digitExtent b n cs).1 ≤ n) : cs.head?.any (goesOn b) = false := by
  cases cs with
  | nil => rfl
  | cons c cs =>
    have hlater := le_digitExtent b (n + 1) cs
    rw [digitExtent] at h
    by_cases hdigit : b.isDigit c = true
    · rw [if_pos hdigit] at h
      omega
    rw [if_neg hdigit] at h
    by_cases hapostrophe : c = '\x27'
    · rw [if_pos hapostrophe] at h
      split at h
      · omega
      · exact absurd h (Nat.not_succ_le_self n)
    · simp [goesOn, hdigit, hapostrophe]

theorem digitExtent_append {b : Base} {n : Nat} (hb : PassesFor back' back)
    (h : (digitExtent b n (u ++ back)).1 ≤ n + u.length) :
    digitExtent b n (u ++ back') = digitExtent b n (u ++ back) := by
  induction u generalizing n with
  | nil =>
    have hback : back.head?.any (goesOn b) = false := any_head?_of_digitExtent_le h
    have hback' := hb.any_head? (by simp [goesOn, b.isDigit_lineFeed])
      (by simp [goesOn, b.isDigit_space]) hback
    rw [List.nil_append, List.nil_append, digitExtent_of_any_head? n hback,
      digitExtent_of_any_head? n hback']
  | cons c u ih =>
    rw [List.cons_append, digitExtent, List.length_cons] at h
    rw [List.cons_append, List.cons_append, digitExtent, digitExtent]
    by_cases hc : b.isDigit c = true
    · rw [if_pos hc] at h
      rw [if_pos hc, if_pos hc]
      exact ih (by omega)
    · rw [if_neg hc] at h
      rw [if_neg hc, if_neg hc]
      by_cases hq : c = '\x27'
      · rw [if_pos hq] at h
        rw [if_pos hq, if_pos hq]
        -- a digit behind the apostrophe would be one more character
        have hstarts : startsWithDigit b (u ++ back') = startsWithDigit b (u ++ back) := by
          refine startsWithDigit_append hb ?_
          rintro rfl
          refine Bool.eq_false_iff.2 fun hs => ?_
          have hlt := lt_digitExtent (n + 1) hs
          rw [List.nil_append, if_pos hs] at h
          simp at h
          omega
        rw [hstarts]
        by_cases hs : startsWithDigit b (u ++ back) = true
        · rw [if_pos hs] at h
          rw [if_pos hs, if_pos hs]
          exact ih (by omega)
        · rw [if_neg hs, if_neg hs]
      · rw [if_neg hq, if_neg hq]

variable {v : View}

theorem isLocal_digits (b : Base) : (digits b).IsLocal v := by
  intro p q u back back' hpq hb h
  have hle : (digitExtent b 0 (u ++ back)).1 ≤ u.length := h
  have hextent : digitExtent b 0 (u ++ back') = digitExtent b 0 (u ++ back) :=
    digitExtent_append hb (by omega)
  unfold digits Stretch.outline
  rw [hextent]
  rcases hn : digitExtent b 0 (u ++ back) with ⟨n, lacksDigit⟩
  rw [hn] at hle
  cases lacksDigit with
  | false => rfl
  | true =>
    refine congrArg (Prod.mk n) ?_
    dsimp only
    rw [if_pos rfl, if_pos rfl, List.take_append_of_le_length hle,
      List.take_append_of_le_length hle]
    exact v.told_ofPosition (v.after hpq _) _

theorem isLocal_someDigits (missing : Code) : (someDigits missing).IsLocal v := by
  refine .ofHead (f := digits .decimal) (g := fun p _ => ⟨0, [.ofPosition missing p]⟩)
    Base.decimal.isDigit_lineFeed Base.decimal.isDigit_space (isLocal_digits .decimal)
    (fun _ _ _ _ _ hpq _ _ => congrArg (Prod.mk 0) (v.told_ofPosition hpq missing)) ?_ ?_
  · intro p cs h
    rw [← startsWithDigit_eq] at h
    exact lt_digitExtent 0 h
  · intro p cs
    rw [← startsWithDigit_eq]
    rfl

theorem isLocal_sign : sign.IsLocal v := by
  refine .ofHead (f := Rule.skip 1) (g := Rule.skip 0) (k := fun c => c = '+' || c = '-') rfl rfl
    (.skip 1) (.skip 0) (fun _ _ _ => Nat.one_pos) fun p cs => ?_
  unfold sign
  split
  · rfl
  · rfl
  · next hplus hminus => rw [any_head?_of_ne hplus hminus, if_neg Bool.false_ne_true]

theorem isLocal_exponent : exponent.IsLocal v := by
  refine .ofHead (g := Rule.skip 0) (k := fun c => c = 'e' || c = 'E') rfl rfl
    (((Rule.IsLocal.skip 1).andThen isLocal_sign).andThen
      (isLocal_someDigits .exponentWithoutDigit)) (.skip 0) ?_ fun p cs => ?_
  · intro p cs _
    rw [Rule.length_andThen, Rule.length_andThen, Rule.length_skip]
    omega
  · unfold exponent
    split
    · rfl
    · rfl
    · next hsmall hcapital => rw [any_head?_of_ne hsmall hcapital, if_neg Bool.false_ne_true]

theorem isLocal_fraction : fraction.IsLocal v :=
  ((Rule.IsLocal.skip 1).andThen (isLocal_someDigits _)).andThen isLocal_exponent

/-! A number ends behind the last letter or digit. Which rule it follows is told by its characters,
even where this takes a look at the character behind them. -/

/-- The letters and digits directly behind what a rule takes. -/
def junk (f : Rule) (p : Position) (rest : List Char) : List Char :=
  (rest.drop (f p rest).length).takeWhile Char.isAlphanum

/-- The number of characters that a rule takes, and of the letters and digits directly behind. -/
def span (f : Rule) (p : Position) (rest : List Char) : Nat :=
  (f p rest).length + (junk f p rest).length

theorem startsFraction_dot (cs : List Char) :
    startsFraction ('.' :: cs) = !cs.head?.any (· = '.') := by
  cases cs with
  | nil => rfl
  | cons c cs => by_cases hc : c = '.' <;> simp [startsFraction, hc]

theorem startsFraction_append (hb : PassesFor back' back)
    (hnil : u = [] → startsFraction back = false)
    (hdot : u = ['.'] → startsFraction ('.' :: back) = true) :
    startsFraction (u ++ back') = startsFraction (u ++ back) := by
  match u with
  | [] =>
    rw [List.nil_append, List.nil_append, hnil rfl]
    exact hb.point (hnil rfl)
  | [c] =>
    by_cases hc : c = '.'
    · subst hc
      have hback : back.head?.any (· = '.') = false := by
        simpa only [startsFraction_dot, Bool.not_eq_true'] using hdot rfl
      rw [List.singleton_append, List.singleton_append, hdot rfl, startsFraction_dot,
        hb.any_head? rfl rfl hback, Bool.not_false]
    · simp [startsFraction, hc]
  | c :: d :: u =>
    by_cases hc : c = '.'
    · by_cases hd : d = '.' <;> simp [startsFraction, hc, hd]
    · simp [startsFraction, hc]

theorem length_pos_fraction (p : Position) (cs : List Char) : 0 < (fraction p cs).length := by
  rw [fraction, Rule.length_andThen, Rule.length_andThen, Rule.length_skip]
  omega

theorem based_append {b : Base} {t : Token} {p : Position} {c : Char} (hb : PassesFor back' back)
    (h : span (based b t (u ++ back)).2 p (c :: (u ++ back)) = u.length + 1) :
    based b t (u ++ back') = based b t (u ++ back) := by
  have hstarts : startsWithDigit b (u ++ back') = startsWithDigit b (u ++ back) := by
    refine startsWithDigit_append hb ?_
    rintro rfl
    refine Bool.eq_false_iff.2 fun hs => ?_
    have hdigits : 0 < (digits b (p.next c) back).length := lt_digitExtent 0 hs
    rw [List.nil_append, based, if_pos hs, span, Rule.length_andThen] at h
    simp at h
    omega
  rw [based, based, hstarts]

/-- What a number is that starts with 0, by the character behind the 0. -/
theorem afterZero_cons (c : Char) (cs : List Char) :
    afterZero (c :: cs) =
      if c = 'b' then based .binary .wholeNumber cs
      else if c = 'x' then based .hexadecimal .wholeNumber cs
      else if c = 'u' then based .hexadecimal .charCode cs
      else if startsFraction (c :: cs) then (.realNumber, fraction)
      else if c.isAlphanum then (.malformedNumber, Rule.skip 0)
      else (.wholeNumber, Rule.skip 0) := by
  unfold afterZero
  split
  · next heq => cases heq; rfl
  · next heq => cases heq; rfl
  · next heq => cases heq; rfl
  · next hb hx hu heq =>
    obtain ⟨rfl, rfl⟩ := List.cons.inj heq
    rw [if_neg hb, if_neg hx, if_neg hu]
  · next heq => cases heq

/-- Behind a 0 with nothing to it there is neither a letter nor a digit nor a fraction. -/
theorem any_head?_of_span_eq_zero {p : Position} {cs : List Char}
    (h : span (afterZero cs).2 p cs = 0) :
    cs.head?.any Char.isAlphanum = false ∧ startsFraction cs = false := by
  cases cs with
  | nil => exact ⟨rfl, rfl⟩
  | cons c cs =>
    have hbased {b : Base} {t : Token} : 0 < span (based b t cs).2 p (c :: cs) := by
      unfold based
      split
      · refine Nat.add_pos_left ?_ _
        rw [Rule.length_andThen, Rule.length_skip]
        exact Nat.add_pos_left Nat.one_pos _
      · exact Nat.add_pos_left Nat.one_pos _
    rw [afterZero_cons] at h
    by_cases hbin : c = 'b'
    · rw [if_pos hbin] at h
      exact absurd h (Nat.ne_of_gt hbased)
    rw [if_neg hbin] at h
    by_cases hhex : c = 'x'
    · rw [if_pos hhex] at h
      exact absurd h (Nat.ne_of_gt hbased)
    rw [if_neg hhex] at h
    by_cases hcode : c = 'u'
    · rw [if_pos hcode] at h
      exact absurd h (Nat.ne_of_gt hbased)
    rw [if_neg hcode] at h
    by_cases hpoint : startsFraction (c :: cs) = true
    · rw [if_pos hpoint, span] at h
      exact absurd h (Nat.ne_of_gt (Nat.add_pos_left (length_pos_fraction p _) _))
    rw [if_neg hpoint] at h
    by_cases hword : c.isAlphanum = true
    · rw [if_pos hword] at h
      simp [span, junk, Rule.skip, hword] at h
    · exact ⟨Bool.eq_false_iff.2 hword, Bool.eq_false_iff.2 hpoint⟩

/-- A 0 with nothing to it is a whole number. -/
theorem afterZero_of_any_head? {cs : List Char} (hword : cs.head?.any Char.isAlphanum = false)
    (hpoint : startsFraction cs = false) : afterZero cs = (.wholeNumber, Rule.skip 0) := by
  cases cs with
  | nil => rfl
  | cons c cs =>
    have hc : c.isAlphanum = false := hword
    have hne {d : Char} (hd : d.isAlphanum = true) : c ≠ d := by
      rintro rfl
      rw [hd] at hc
      cases hc
    rw [afterZero_cons, if_neg (hne rfl), if_neg (hne rfl), if_neg (hne rfl), hpoint, hc,
      if_neg Bool.false_ne_true, if_neg Bool.false_ne_true]

theorem afterZero_append {p : Position} (hb : PassesFor back' back)
    (h : span (afterZero (u ++ back)).2 p (u ++ back) = u.length) :
    afterZero (u ++ back') = afterZero (u ++ back) := by
  cases u with
  | nil =>
    rw [List.nil_append] at h
    obtain ⟨hword, hpoint⟩ := any_head?_of_span_eq_zero h
    rw [List.nil_append, List.nil_append, afterZero_of_any_head? hword hpoint]
    exact afterZero_of_any_head? (hb.any_head? rfl rfl hword) (hb.point hpoint)
  | cons c u =>
    rw [List.cons_append, afterZero_cons] at h ⊢
    rw [List.cons_append, afterZero_cons]
    by_cases hbin : c = 'b'
    · rw [if_pos hbin] at h
      rw [if_pos hbin, if_pos hbin]
      exact based_append hb h
    rw [if_neg hbin] at h
    rw [if_neg hbin, if_neg hbin]
    by_cases hhex : c = 'x'
    · rw [if_pos hhex] at h
      rw [if_pos hhex, if_pos hhex]
      exact based_append hb h
    rw [if_neg hhex] at h
    rw [if_neg hhex, if_neg hhex]
    by_cases hcode : c = 'u'
    · rw [if_pos hcode] at h
      rw [if_pos hcode, if_pos hcode]
      exact based_append hb h
    rw [if_neg hcode] at h
    rw [if_neg hcode, if_neg hcode]
    have hstarts : startsFraction (c :: u ++ back') = startsFraction (c :: u ++ back) := by
      refine startsFraction_append hb (fun hnil => (by cases hnil)) ?_
      rintro ⟨⟩
      refine Bool.not_eq_false _ ▸ fun hdots => ?_
      rw [if_neg (by simp [hdots])] at h
      simp [span, junk, Rule.skip] at h
    rw [show c :: (u ++ back') = c :: u ++ back' from rfl, hstarts]
    rfl

theorem afterDigit_append {p : Position} (hb : PassesFor back' back)
    (h : span (afterDigit (u ++ back)).2 p (u ++ back) = u.length) :
    afterDigit (u ++ back') = afterDigit (u ++ back) := by
  generalize hn : (digitExtent .decimal 0 (u ++ back)).1 = n
  have hdigits : (digits .decimal p (u ++ back)).length = n := hn
  have hle : n ≤ u.length := by
    rw [← h, span, afterDigit]
    split
    · rw [Rule.length_andThen]
      omega
    · rw [hdigits]
      omega
  have hextent : digitExtent .decimal 0 (u ++ back') = digitExtent .decimal 0 (u ++ back) :=
    digitExtent_append hb (by omega)
  have hdrop (x : List Char) : (u ++ x).drop n = u.drop n ++ x := List.drop_append_of_le_length hle
  have hlength : (u.drop n).length = u.length - n := List.length_drop
  have hstarts : startsFraction (u.drop n ++ back') = startsFraction (u.drop n ++ back) := by
    refine startsFraction_append hb (fun hnil => ?_) (fun hdot => ?_)
    · -- a fraction would be longer than the number
      refine Bool.eq_false_iff.2 fun hpoint => ?_
      rw [afterDigit, hn, hdrop, hnil, List.nil_append, if_pos hpoint, span,
        Rule.length_andThen, hdigits] at h
      have hpos := length_pos_fraction (p.after ((u ++ back).take n)) ((u ++ back).drop n)
      rw [hnil, List.length_nil] at hlength
      omega
    · -- without a fraction the number would end in front of the dot
      refine Bool.not_eq_false _ ▸ fun hdots => ?_
      rw [afterDigit, hn, hdrop, hdot, List.singleton_append, if_neg (by simp [hdots]), span,
        junk, hdigits, hdrop, hdot] at h
      rw [hdot] at hlength
      simp at h hlength
      omega
  rw [afterDigit, afterDigit, hextent, hn, hdrop, hdrop, hstarts]

/-- What a number is that starts with the digit `c`, and the rule for what is behind it. -/
def kindOf (c : Char) (rest : List Char) : Token × Rule :=
  if c = '0' then afterZero rest else afterDigit rest

theorem kindOf_append {p : Position} {c : Char} (hb : PassesFor back' back)
    (h : span (kindOf c (u ++ back)).2 p (u ++ back) = u.length) :
    kindOf c (u ++ back') = kindOf c (u ++ back) := by
  unfold kindOf at h ⊢
  by_cases hc : c = '0'
  · rw [if_pos hc] at h
    rw [if_pos hc, if_pos hc]
    exact afterZero_append hb h
  · rw [if_neg hc] at h
    rw [if_neg hc, if_neg hc]
    exact afterDigit_append hb h

/-- What there is as a number: a token and the rule that comes with it. -/
inductive IsKind : Token × Rule → Prop
  | zero : IsKind (.wholeNumber, Rule.skip 0)
  | malformed (n : Nat) : IsKind (.malformedNumber, Rule.skip n)
  | based (b : Base) {t : Token} (ht : t = .wholeNumber ∨ t = .charCode) :
    IsKind (t, (Rule.skip 1).andThen (digits b))
  | fraction : IsKind (.realNumber, fraction)
  | digits : IsKind (.wholeNumber, digits .decimal)
  | real : IsKind (.realNumber, (digits .decimal).andThen fraction)

theorem isKind_based (b : Base) {t : Token} (ht : t = .wholeNumber ∨ t = .charCode)
    (behind : List Char) : IsKind (based b t behind) := by
  unfold based
  split
  · exact .based b ht
  · exact .malformed 1

/-- A number is of one of the kinds. -/
theorem isKind_kindOf (c : Char) (rest : List Char) : IsKind (kindOf c rest) := by
  unfold kindOf
  split
  · unfold afterZero
    split
    · exact isKind_based _ (.inl rfl) _
    · exact isKind_based _ (.inl rfl) _
    · exact isKind_based _ (.inr rfl) _
    · split
      · exact .fraction
      · split
        · exact .malformed 0
        · exact .zero
    · exact .zero
  · unfold afterDigit
    split
    · exact .real
    · exact .digits

theorem IsKind.isLocal {kind : Token × Rule} (h : IsKind kind) : kind.2.IsLocal v := by
  cases h with
  | zero => exact .skip 0
  | malformed n => exact .skip n
  | based b => exact (Rule.IsLocal.skip 1).andThen (isLocal_digits b)
  | fraction => exact isLocal_fraction
  | digits => exact isLocal_digits _
  | real => exact (isLocal_digits _).andThen isLocal_fraction

/-- The outline of a number, given what it is, what its rule takes, what letters and digits are
directly behind, and what is told of a malformed number. -/
def outlineOf {α : Type} (t : Token) (s : Nat × List α) (junk : List Char) (malformed : List α) :
    Token × Nat × List α :=
  if t = .malformedNumber ∨ junk ≠ [] then
    (.malformedNumber, 1 + s.1 + junk.length, s.2 ++ malformed)
  else (t, 1 + s.1, s.2)

/-- The fault of a malformed number that has so many characters behind its first one. -/
def malformedReport (c : Char) (rest : List Char) (n : Nat) : Diagnostic :=
  { Diagnostic.new .malformedNumber 0 0 with lexeme := String.ofList (c :: rest.take n) }

theorem outline_read_eq (p : Position) (c : Char) (rest : List Char) :
    (Number.read p c rest).outline v =
      outlineOf (kindOf c rest).1 (((kindOf c rest).2 (p.next c) rest).outline v)
        (junk (kindOf c rest).2 (p.next c) rest)
        (v.told [(malformedReport c rest (span (kindOf c rest).2 (p.next c) rest)).moveTo p]) := by
  unfold Number.read kindOf outlineOf span junk
  rcases (if c = '0' then afterZero rest else afterDigit rest) with ⟨token, rule⟩
  dsimp only
  split
  · unfold Reading.outline
    dsimp only
    have htake (n m : Nat) : (c :: rest).take (1 + n + m) = c :: rest.take (n + m) := by
      rw [Nat.add_assoc, Nat.add_comm 1, List.take_succ_cons]
    rw [v.told_append, htake]
    rfl
  · rfl

theorem length_read (p : Position) (c : Char) (rest : List Char) :
    (Number.read p c rest).length = 1 + span (kindOf c rest).2 (p.next c) rest := by
  have h := congrArg (·.2.1) (outline_read_eq (v := .ofCodes) p c rest)
  rw [show (Number.read p c rest).length = _ from h, outlineOf, span]
  split
  · exact Nat.add_assoc _ _ _
  · next hplain =>
    rw [not_or, Decidable.not_not] at hplain
    rw [hplain.2]
    rfl

theorem outline_read_append {p q : Position} {c : Char} (hpq : v.StandsFor p q)
    (hb : PassesFor back' back) (h : (Number.read p c (u ++ back)).length = u.length + 1) :
    (Number.read q c (u ++ back')).outline v = (Number.read p c (u ++ back)).outline v := by
  rw [length_read, Nat.add_comm] at h
  have hspan := Nat.succ_inj.1 h
  have hkind := kindOf_append hb hspan
  have hle : ((kindOf c (u ++ back)).2 (p.next c) (u ++ back)).length ≤ u.length := by
    rw [← hspan]
    exact Nat.le_add_right _ _
  have hrule := (isKind_kindOf c (u ++ back)).isLocal (p.next c) (q.next c) u back back'
    (v.next hpq c) hb hle
  have hlength : ((kindOf c (u ++ back)).2 (q.next c) (u ++ back')).length =
      ((kindOf c (u ++ back)).2 (p.next c) (u ++ back)).length := congrArg Prod.fst hrule
  -- the letters and digits behind what the rule takes are the rest of `u`
  have hjunk : junk (kindOf c (u ++ back)).2 (q.next c) (u ++ back') =
      junk (kindOf c (u ++ back)).2 (p.next c) (u ++ back) := by
    unfold junk
    rw [hlength, List.drop_append_of_le_length hle, List.drop_append_of_le_length hle]
    rw [span, junk, List.drop_append_of_le_length hle] at hspan
    generalize ((kindOf c (u ++ back)).2 (p.next c) (u ++ back)).length = n at hspan ⊢
    have hrun : ((u.drop n ++ back).takeWhile Char.isAlphanum).length = (u.drop n).length := by
      rw [List.length_drop]
      omega
    have hrun := takeWhile_append_of_any_head? (hb.any_head? rfl rfl) hrun
    rw [hrun.1, hrun.2]
  have hspan' : span (kindOf c (u ++ back)).2 (q.next c) (u ++ back') = u.length := by
    rw [← hspan, span, hlength, hjunk, span]
  rw [outline_read_eq, outline_read_eq, hkind, hrule, hjunk, hspan, hspan', malformedReport,
    malformedReport, List.take_left, List.take_left, v.told_moveTo hpq]

end Number

/-! ## Quoted literals -/

namespace Quoted

variable {v : View} {p q : Position}

/-- What is wrong with a character is told alike. -/
theorem told_fault? (hpq : v.StandsFor p q) (c : Char) (behind : List Char) :
    v.told (fault? q c behind).toList = v.told (fault? p c behind).toList := by
  unfold fault?
  split
  · split
    · rfl
    · rfl
    · exact v.told_moveTo hpq { Diagnostic.new .invalidEscape 0 0 with char := behind.head? }
  · split
    · exact v.told_moveTo hpq { Diagnostic.new .controlCharacter 0 0 with char := c }
    · rfl

theorem told_faults (quote : Char) (hpq : v.StandsFor p q) (cs : List Char) :
    v.told (faults quote q cs) = v.told (faults quote p cs) := by
  induction cs generalizing p q with
  | nil => rfl
  | cons c cs ih =>
    rw [faults, faults]
    split
    · rfl
    · rw [v.told_append, v.told_append, told_fault? hpq, ih (v.next hpq c)]

/-- The faults of a literal do not depend on what is behind its closing quote. -/
theorem faults_append_quote {quote : Char} (p : Position) (body back back' : List Char) :
    faults quote p (body ++ quote :: back') = faults quote p (body ++ quote :: back) := by
  induction body generalizing p with
  | nil => simp [faults]
  | cons c body ih =>
    have hfault : fault? p c (body ++ quote :: back') = fault? p c (body ++ quote :: back) := by
      cases body <;> rfl
    rw [List.cons_append, List.cons_append, faults, faults, hfault, ih]

theorem outline_read_eq {quote : Char} (hq : IsQuote quote) (p : Position) (rest : List Char) :
    (Quoted.read p quote rest).outline v =
      if (rest.takeWhile (· != quote)).length < rest.length then
        (.quotedString, (rest.takeWhile (· != quote)).length + 2,
          v.told (faults quote (p.next quote) rest))
      else
        (.malformedString, (rest.takeWhile (· != quote)).length + 1,
          v.told (faults quote (p.next quote) rest) ++
            v.told [.ofPosition .unterminatedQuoted p]) := by
  split
  · next hclosed => rw [read_eq_closed hq p hclosed]; rfl
  · next hclosed => rw [read_eq_unclosed hq p hclosed, Reading.outline, v.told_append]

/-- A literal that ends in front of the end of the source ends in a quote. -/
theorem exists_eq_append_quote {quote : Char} {rest : List Char}
    (h : (rest.takeWhile (· != quote)).length < rest.length) :
    ∃ behind, rest = rest.takeWhile (· != quote) ++ quote :: behind := by
  have hsplit := List.takeWhile_append_dropWhile (p := (· != quote)) (l := rest)
  cases hd : rest.dropWhile (· != quote) with
  | nil =>
    rw [hd, List.append_nil] at hsplit
    rw [hsplit] at h
    exact absurd h (Nat.lt_irrefl _)
  | cons c behind =>
    have hc : c = quote := by
      have := List.head_dropWhile_not (p := (· != quote)) (l := rest) (by simp [hd])
      simpa [hd] using this
    rw [hd, hc] at hsplit
    exact ⟨behind, hsplit.symm⟩

theorem outline_read_append {quote : Char} (hq : IsQuote quote) (hpq : v.StandsFor p q)
    (hb : PassesFor back' back) (h : (Quoted.read p quote (u ++ back)).length = u.length + 1) :
    (Quoted.read q quote (u ++ back')).outline v = (Quoted.read p quote (u ++ back)).outline v := by
  have hlength : ((Quoted.read p quote (u ++ back)).outline v).2.1 = u.length + 1 := h
  rw [outline_read_eq hq] at hlength
  by_cases hclosed : ((u ++ back).takeWhile (· != quote)).length < (u ++ back).length
  · rw [if_pos hclosed] at hlength
    obtain ⟨behind, hsplit⟩ := exists_eq_append_quote hclosed
    have hbody : ∀ c ∈ (u ++ back).takeWhile (· != quote), (c != quote) = true :=
      List.all_eq_true.1 List.all_takeWhile
    rw [outline_read_eq hq, outline_read_eq hq, if_pos hclosed]
    generalize (u ++ back).takeWhile (· != quote) = body at *
    have hsame : body.length + 1 = u.length := Nat.succ_inj.1 hlength
    have hu : u = body ++ [quote] := by
      rw [List.append_cons] at hsplit
      exact List.append_inj_left hsplit (by simp [hsame])
    have hnew : u ++ back' = body ++ quote :: back' := by simp [hu]
    have hrun : (body ++ quote :: back').takeWhile (· != quote) = body := by
      rw [List.takeWhile_append_of_pos hbody]
      simp
    rw [hsplit, hnew, hrun, faults_append_quote _ body behind back',
      told_faults quote (v.next hpq quote), if_pos (by simp)]
  · rw [if_neg hclosed] at hlength
    have hsame : ((u ++ back).takeWhile (· != quote)).length = u.length := Nat.succ_inj.1 hlength
    have hback : back = [] := by
      rw [List.length_append] at hclosed
      exact List.length_eq_zero_iff.1 (by omega)
    rw [hb.nil hback, hback, outline_read_eq hq, outline_read_eq hq, told_faults _ (v.next hpq quote),
      v.told_ofPosition hpq]

end Quoted

/-! ## Comments and pragmas -/

namespace Comment

variable {v : View} {p q : Position}

theorem outline_readLine_append (hb : PassesFor back' back)
    (h : (readLine (u ++ back)).length = u.length + 1) :
    (readLine (u ++ back')).outline v = (readLine (u ++ back)).outline v := by
  have hrun := takeWhile_append_of_any_head? hb.line (Nat.succ_inj.1 h)
  simp only [readLine, Reading.outline, hrun.1, hrun.2]

/-- A scan that takes all of `u`, and no more, does not go on over a break, if what it takes up to
an end does not depend on what is behind the end, and if it takes all that is there without one. -/
theorem scan_append {α : Type} {scan : List Char → α} {closed : Bool} {length : Nat}
    (hb : PassesFor back' back) (hlength : length = 0 + u.length)
    (hend : closed = true → scan ((u ++ back).take u.length ++ back') = scan (u ++ back))
    (hall : closed = false → length = 0 + (u ++ back).length) :
    scan (u ++ back') = scan (u ++ back) := by
  cases closed with
  | true =>
    have htake := hend rfl
    rwa [List.take_left] at htake
  | false =>
    have hback : back = [] := by
      rw [hall rfl, List.length_append] at hlength
      exact List.length_eq_zero_iff.1 (by omega)
    rw [hb.nil hback, hback]

/-- A comment that ends has an end of two characters. -/
theorem le_length_extent_of_closed {depth ignored n : Nat} {tooDeep : Option Nat}
    {cs : List Char} (h : (extent depth ignored n tooDeep cs).closed = true) :
    n + 2 ≤ (extent depth ignored n tooDeep cs).length := by
  revert h
  fun_induction extent depth ignored n tooDeep cs with
  | case1 _ _ _ _ _ _ ih | case2 _ _ _ _ _ _ ih | case3 _ _ _ _ _ _ ih
  | case5 _ _ _ _ _ _ _ ih | case6 _ _ _ _ _ _ _ _ ih =>
    intro h
    have := ih h
    omega
  | case4 => exact fun _ => Nat.le_refl _
  | case7 => exact fun h => by cases h

/-- A comment without an end takes all that is there. -/
theorem length_extent_of_not_closed {depth ignored n : Nat} {tooDeep : Option Nat}
    {cs : List Char} (h : (extent depth ignored n tooDeep cs).closed = false) :
    (extent depth ignored n tooDeep cs).length = n + cs.length := by
  revert h
  fun_induction extent depth ignored n tooDeep cs with
  | case1 _ _ _ _ _ _ ih | case2 _ _ _ _ _ _ ih | case3 _ _ _ _ _ _ ih
  | case5 _ _ _ _ _ _ _ ih | case6 _ _ _ _ _ _ _ _ ih =>
    intro h
    simp only [ih h, List.length_cons]
    omega
  | case4 => exact fun h => by cases h
  | case7 => exact fun _ => rfl

/-- A comment that ends does not depend on what is behind its end. -/
theorem extent_take_append {depth ignored n : Nat} {tooDeep : Option Nat} {cs : List Char}
    {m : Nat} (h : (extent depth ignored n tooDeep cs).closed = true)
    (hm : (extent depth ignored n tooDeep cs).length = n + m) (back : List Char) :
    extent depth ignored n tooDeep (cs.take m ++ back) = extent depth ignored n tooDeep cs := by
  revert h hm
  fun_induction extent depth ignored n tooDeep cs generalizing m with
  | case1 _ _ _ _ _ hdepth ih | case2 _ _ _ _ _ hdepth ih | case3 _ _ _ _ _ hdepth ih =>
    intro h hm
    have hle := le_length_extent_of_closed h
    obtain ⟨l, rfl⟩ := Nat.exists_eq_add_of_le' (show 2 ≤ m by omega)
    simp only [List.take_succ_cons, List.cons_append, extent, hdepth, if_true, if_false]
    exact ih h (by omega)
  | case4 _ _ n _ _ hignored hdepth =>
    intro _ hm
    have hend : n + 2 = n + m := hm
    obtain ⟨l, rfl⟩ := Nat.exists_eq_add_of_le' (show 2 ≤ m by omega)
    simp only [List.take_succ_cons, List.cons_append, extent, hignored, hdepth, if_true, if_false]
  | case5 _ _ _ _ _ hignored hdepth ih =>
    intro h hm
    have hle := le_length_extent_of_closed h
    obtain ⟨l, rfl⟩ := Nat.exists_eq_add_of_le' (show 2 ≤ m by omega)
    simp only [List.take_succ_cons, List.cons_append, extent, hignored, hdepth, if_false]
    exact ih h (by omega)
  | case6 _ _ _ _ c cs hopen hclose ih =>
    intro h hm
    have hle := le_length_extent_of_closed h
    obtain ⟨l, rfl⟩ := Nat.exists_eq_add_of_le' (show 2 ≤ m by omega)
    -- the next character is still there, so that no pair of characters comes about
    cases cs with
    | nil => cases h
    | cons d cs =>
      rw [List.take_succ_cons, List.cons_append, extent]
      · exact ih h (by omega)
      · exact fun _ hc hd => hopen cs hc (by rw [(List.cons.inj hd).1])
      · exact fun _ hc hd => hclose cs hc (by rw [(List.cons.inj hd).1])
  | case7 => exact fun h => by cases h

/-- The report of an opener behind some characters of a text that stands at a position. -/
def deepReport (p : Position) (cs : List Char) (tooDeep : Option Nat) : List Diagnostic :=
  match tooDeep with
  | none => []
  | some n => [.ofPosition .commentTooDeep (p.after (cs.take n))]

theorem token_readBlock (p : Position) (body : List Char) : (readBlock p body).token =
    if (extent 1 0 0 none body).closed then .blockComment else .malformedComment := by
  unfold readBlock
  dsimp only
  split <;> rfl

theorem reports_readBlock (p : Position) (body : List Char) :
    (readBlock p body).reports =
      deepReport ((p.next '(').next '*') body (extent 1 0 0 none body).tooDeep ++
        if (extent 1 0 0 none body).closed then [] else [.ofPosition .unterminatedComment p] := by
  unfold readBlock deepReport
  dsimp only
  cases (extent 1 0 0 none body).closed <;> cases (extent 1 0 0 none body).tooDeep <;> rfl

theorem length_readBlock (p : Position) (body : List Char) :
    (readBlock p body).length = (extent 1 0 0 none body).length + 2 := by
  unfold readBlock
  dsimp only
  split <;> rfl

/-- An opener that goes too deep is found in the comment. -/
theorem le_length_of_tooDeep {depth ignored n m : Nat} {tooDeep : Option Nat} {cs : List Char}
    (h : (extent depth ignored n tooDeep cs).tooDeep = some m) (hle : ∀ l ∈ tooDeep, l ≤ n) :
    m ≤ (extent depth ignored n tooDeep cs).length := by
  revert h hle
  fun_induction extent depth ignored n tooDeep cs with
  | case1 _ _ _ _ _ _ ih | case3 _ _ _ _ _ _ ih | case5 _ _ _ _ _ _ _ ih
  | case6 _ _ _ _ _ _ _ _ ih =>
    exact fun h hle => ih h fun l hl => Nat.le_trans (hle l hl) (by omega)
  | case2 _ _ n tooDeep _ _ ih =>
    refine fun h hle => ih h fun l hl => ?_
    cases tooDeep with
    | none =>
      cases hl
      omega
    | some k => exact Nat.le_trans (hle l hl) (by omega)
  | case4 => exact fun h hle => Nat.le_trans (hle m h) (Nat.le_add_right _ 2)
  | case7 => exact fun h hle => hle m h

/-- The report of an opener is told alike, if the opener is in what stays. -/
theorem told_deepReport {tooDeep : Option Nat} (hpq : v.StandsFor p q)
    (h : ∀ m ∈ tooDeep, m ≤ u.length) :
    v.told (deepReport q (u ++ back') tooDeep) = v.told (deepReport p (u ++ back) tooDeep) := by
  cases tooDeep with
  | none => rfl
  | some m =>
    have hle := h m rfl
    unfold deepReport
    dsimp only
    rw [List.take_append_of_le_length hle, List.take_append_of_le_length hle]
    exact v.told_ofPosition (v.after hpq _) _

theorem outline_readBlock_append (hpq : v.StandsFor p q) (hb : PassesFor back' back)
    (h : (readBlock p (u ++ back)).length = u.length + 2) :
    (readBlock q (u ++ back')).outline v = (readBlock p (u ++ back)).outline v := by
  have hlength : (extent 1 0 0 none (u ++ back)).length = 0 + u.length := by
    rw [length_readBlock] at h
    omega
  have hextent : extent 1 0 0 none (u ++ back') = extent 1 0 0 none (u ++ back) :=
    scan_append hb hlength (fun h => extent_take_append h hlength back')
      length_extent_of_not_closed
  have hdeep (m : Nat) (hm : (extent 1 0 0 none (u ++ back)).tooDeep = some m) : m ≤ u.length := by
    have hle := le_length_of_tooDeep hm fun l hl => (by cases hl)
    omega
  have hopen : v.told (if (extent 1 0 0 none (u ++ back)).closed then []
      else [.ofPosition .unterminatedComment q]) =
      v.told (if (extent 1 0 0 none (u ++ back)).closed then []
        else [.ofPosition .unterminatedComment p]) := by
    split
    · rfl
    · exact v.told_ofPosition hpq _
  unfold Reading.outline
  rw [token_readBlock, token_readBlock, length_readBlock, length_readBlock, reports_readBlock,
    reports_readBlock, v.told_append, v.told_append, hextent, hopen,
    told_deepReport (v.next (v.next hpq '(') '*') hdeep]

/-- A pragma that ends has an end of two characters. -/
theorem le_pragmaExtent_of_closed {n : Nat} {cs : List Char} (h : (pragmaExtent n cs).2 = true) :
    n + 2 ≤ (pragmaExtent n cs).1 := by
  revert h
  fun_induction pragmaExtent n cs with
  | case1 => exact fun _ => Nat.le_refl _
  | case2 _ _ _ _ ih =>
    intro h
    have := ih h
    omega
  | case3 => exact fun h => by cases h

/-- A pragma without an end takes all that is there. -/
theorem pragmaExtent_of_not_closed {n : Nat} {cs : List Char} (h : (pragmaExtent n cs).2 = false) :
    (pragmaExtent n cs).1 = n + cs.length := by
  revert h
  fun_induction pragmaExtent n cs with
  | case1 => exact fun h => by cases h
  | case2 _ _ _ _ ih =>
    intro h
    simp only [ih h, List.length_cons]
    omega
  | case3 => exact fun _ => rfl

/-- A pragma that ends does not depend on what is behind its end. -/
theorem pragmaExtent_take_append {n m : Nat} {cs : List Char} (h : (pragmaExtent n cs).2 = true)
    (hm : (pragmaExtent n cs).1 = n + m) (back : List Char) :
    pragmaExtent n (cs.take m ++ back) = pragmaExtent n cs := by
  revert h hm
  fun_induction pragmaExtent n cs generalizing m with
  | case1 n cs =>
    intro _ hm
    have hend : n + 2 = n + m := hm
    obtain ⟨l, rfl⟩ := Nat.exists_eq_add_of_le' (show 2 ≤ m by omega)
    rfl
  | case2 n c cs hclose ih =>
    intro h hm
    have hle := le_pragmaExtent_of_closed h
    obtain ⟨l, rfl⟩ := Nat.exists_eq_add_of_le' (show 2 ≤ m by omega)
    cases cs with
    | nil => cases h
    | cons d cs =>
      rw [List.take_succ_cons, List.cons_append, pragmaExtent]
      · exact ih h (by omega)
      · exact fun _ hc hd => hclose cs hc (by rw [(List.cons.inj hd).1])
  | case3 => exact fun h => by cases h

theorem outline_readPragma_eq (p : Position) (body : List Char) :
    (readPragma p body).outline v =
      (if (pragmaExtent 0 body).2 then .pragma else .malformedPragma, (pragmaExtent 0 body).1 + 2,
        if (pragmaExtent 0 body).2 then [] else v.told [.ofPosition .unterminatedPragma p]) := by
  unfold readPragma
  rcases pragmaExtent 0 body with ⟨n, closed⟩
  cases closed <;> rfl

theorem length_readPragma (p : Position) (body : List Char) :
    (readPragma p body).length = (pragmaExtent 0 body).1 + 2 :=
  congrArg (·.2.1) (outline_readPragma_eq (v := .ofCodes) p body)

theorem outline_readPragma_append (hpq : v.StandsFor p q) (hb : PassesFor back' back)
    (h : (readPragma p (u ++ back)).length = u.length + 2) :
    (readPragma q (u ++ back')).outline v = (readPragma p (u ++ back)).outline v := by
  have hlength : (pragmaExtent 0 (u ++ back)).1 = 0 + u.length := by
    rw [length_readPragma] at h
    omega
  have hextent : pragmaExtent 0 (u ++ back') = pragmaExtent 0 (u ++ back) :=
    scan_append hb hlength (fun h => pragmaExtent_take_append h hlength back')
      pragmaExtent_of_not_closed
  rw [outline_readPragma_eq, outline_readPragma_eq, hextent, v.told_ofPosition hpq]

end Comment

/-! ## Special symbols -/

namespace Special

theorem double?_lineFeed (c : Char) : double? c '\n' = none := by
  unfold double?
  split <;> simp_all

theorem double?_space (c : Char) : double? c ' ' = none := by
  unfold double?
  split <;> simp_all

theorem read?_append {c : Char} {r : Reading} (hb : PassesFor back' back)
    (h : read? c (u ++ back) = some r) (hlength : r.length = u.length + 1) :
    read? c (u ++ back') = some r := by
  cases u with
  | nil =>
    unfold read? at h ⊢
    rw [List.nil_append] at h ⊢
    cases hd : back.head?.bind (double? c) with
    | none =>
      have hnone : back'.head?.bind (double? c) = none := by
        refine Option.bind_eq_none_iff.2 fun d hmem => ?_
        obtain rfl | rfl | hmem := hb.head d hmem
        · exact double?_lineFeed c
        · exact double?_space c
        · exact Option.bind_eq_none_iff.1 hd d hmem
      rw [hd] at h
      rwa [hnone]
    | some t =>
      rw [hd] at h
      cases h
      cases hlength
  | cons d u => exact h

end Special

/-! ## All symbols -/

namespace Chunk

/-- An opener of two characters is in the text of a symbol that has at least two. -/
theorem exists_of_opener {d : Char} {body : List Char} (h : u ++ back = d :: body)
    (hu : 2 ≤ u.length + 1) : ∃ v, u = d :: v ∧ v ++ back = body := by
  cases u with
  | nil => simp at hu
  | cons e v =>
    obtain ⟨rfl, hv⟩ := List.cons.inj h
    exact ⟨v, rfl, hv⟩

/-- A symbol is read alike wherever it stands, if what comes behind it passes for what came there
before. -/
theorem outline_read?_append {v : View} {o : LexicalOptions} {p q : Position} {c : Char}
    {r : Reading} (hpq : v.StandsFor p q) (hb : PassesFor back' back)
    (h : read? o p c (u ++ back) = some r) (hlength : r.length = u.length + 1) :
    (read? o q c (u ++ back')).map (Reading.outline v) = some (r.outline v) := by
  unfold read? at h ⊢
  split at h
  · next hword =>
    cases h
    rw [if_pos hword, Option.map_some, Word.outline_read_append hpq hb hlength]
  next hword =>
  rw [if_neg hword]
  split at h
  · next hdigit =>
    cases h
    rw [if_pos hdigit, Option.map_some, Number.outline_read_append hpq hb hlength]
  next hdigit =>
  rw [if_neg hdigit]
  split at h
  · cases h
    exact congrArg some (Quoted.outline_read_append (.inl rfl) hpq hb hlength)
  · cases h
    exact congrArg some (Quoted.outline_read_append (.inr rfl) hpq hb hlength)
  · cases h
    exact congrArg some (Comment.outline_readLine_append hb hlength)
  · next body hbody =>
    cases h
    obtain ⟨v, rfl, rfl⟩ := exists_of_opener hbody (by
      rw [hlength.symm.trans (Comment.length_readBlock p body)]
      exact Nat.le_add_left 2 _)
    exact congrArg some (Comment.outline_readBlock_append hpq hb hlength)
  · next body hbody =>
    cases h
    obtain ⟨v, rfl, rfl⟩ := exists_of_opener hbody (by
      rw [hlength.symm.trans (Comment.length_readPragma p body)]
      exact Nat.le_add_left 2 _)
    exact congrArg some (Comment.outline_readPragma_append hpq hb hlength)
  · next hquote hdouble hline hopen hpragma =>
    have hspecial := Special.read?_append hb h hlength
    split
    · exact absurd rfl hquote
    · exact absurd rfl hdouble
    · exact absurd rfl hline
    · next body hbody =>
      obtain ⟨later, hlater⟩ := hb.exists_cons (by decide) (by decide) hbody
      exact absurd hlater (hopen later rfl)
    · next body hbody =>
      obtain ⟨later, hlater⟩ := hb.exists_cons (by decide) (by decide) hbody
      exact absurd hlater (hpragma later rfl)
    · rw [hspecial]
      rfl

end Chunk

end Modula
