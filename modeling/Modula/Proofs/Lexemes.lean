import Modula.Lexical.Chunk
import Modula.Proofs.Literals
import Modula.Proofs.ReservedWords

/-!
# What a symbol consists of

A symbol is read from characters that are there, and its faults stand at these characters or
directly behind them. Where the token does not settle the text, the text is its lexeme; where it
does, the text is the one spelling of the token. This is shown class by class.
-/

namespace Modula

/-- The fault was found at the position. -/
def Diagnostic.IsAt (d : Diagnostic) (p : Position) : Prop := d.line = p.line ∧ d.column = p.column

theorem Diagnostic.isAt_ofPosition (code : Code) (p : Position) : (ofPosition code p).IsAt p :=
  ⟨rfl, rfl⟩

/-- A fault of text that belongs to no symbol. -/
def Code.isOfGaps (c : Code) : Bool := c = .illegalCharacter || c = .unterminatedDisabled

/-- The fault is one of a symbol, and was found somewhere in the text that stands at `p`. -/
structure Diagnostic.Inside (p : Position) (cs : List Char) (d : Diagnostic) : Prop where
  own : d.code.isOfGaps = false
  place : ∃ u, u <+: cs ∧ d.IsAt (p.after u)

namespace Diagnostic.Inside

variable {p : Position} {a cs : List Char} {d : Diagnostic}

theorem start (h : d.code.isOfGaps = false) (hd : d.IsAt p) : d.Inside p cs :=
  ⟨h, [], List.nil_prefix, hd⟩

/-- What is inside the rest of a text is inside the text. -/
theorem shift (h : d.Inside (p.after a) cs) : d.Inside p (a ++ cs) := by
  obtain ⟨hown, u, hu, hd⟩ := h
  refine ⟨hown, a ++ u, (List.prefix_append_right_inj a).2 hu, ?_⟩
  rwa [Position.after_append]

theorem cons {c : Char} (h : d.Inside (p.next c) cs) : d.Inside p (c :: cs) :=
  shift (a := [c]) h

theorem mono {ds : List Char} (h : d.Inside p cs) (hcs : cs <+: ds) : d.Inside p ds :=
  ⟨h.own, h.place.imp fun _ hu => ⟨hu.1.trans hcs, hu.2⟩⟩

end Diagnostic.Inside

/-- Some characters at the start of a text, with faults in it. -/
structure Stretch.Within (p : Position) (cs : List Char) (s : Stretch) : Prop where
  length_le : s.length ≤ cs.length
  inside : ∀ d ∈ s.reports, d.Inside p cs

namespace Stretch.Within

variable {p : Position} {cs : List Char}

theorem skip {n : Nat} (h : n ≤ cs.length) : (Rule.skip n p cs).Within p cs :=
  ⟨h, fun _ hd => by cases hd⟩

theorem andThen {f g : Rule} (hf : (f p cs).Within p cs)
    (hg : (g (p.after (cs.take (f p cs).length)) (cs.drop (f p cs).length)).Within
      (p.after (cs.take (f p cs).length)) (cs.drop (f p cs).length)) :
    (f.andThen g p cs).Within p cs := by
  refine ⟨?_, fun d hd => ?_⟩
  · have hle := hf.length_le
    have hle' := hg.length_le
    rw [List.length_drop] at hle'
    rw [Rule.length_andThen]
    omega
  · rcases List.mem_append.1 hd with hd | hd
    · exact hf.inside d hd
    · rw [← List.take_append_drop (f p cs).length cs]
      exact (hg.inside d hd).shift

/-- Some characters that are there, and whatever rule comes behind them. -/
theorem skip_andThen {n : Nat} {g : Rule} (h : n ≤ cs.length)
    (hg : ∀ q ds, (g q ds).Within q ds) : ((Rule.skip n).andThen g p cs).Within p cs :=
  (skip h).andThen (hg _ _)

end Stretch.Within

/-- The text of a symbol is its lexeme or the spelling of its token. -/
def Token.Spells (t : Token) (text : List Char) : Prop :=
  t.hasLexeme = true ∨ t.spelling? = some (String.ofList text)

/-- A symbol at the start of a text, with faults in it. -/
structure Reading.Within (p : Position) (cs : List Char) (r : Reading) : Prop where
  length_le : r.length ≤ cs.length
  inside : ∀ d ∈ r.reports, d.Inside p cs
  spells : r.token.Spells (cs.take r.length)

/-! ## Words -/

theorem Token.spelling?_of_reservedWord? {text : String} {t : Token}
    (h : reservedWord? text = some t) : t.spelling? = some text := by
  obtain ⟨hword, hname⟩ := reservedWord?_eq_some_iff.1 h
  rw [spelling?, if_pos hword, hname]

theorem Word.spells_classify (o : LexicalOptions) (word : List Char) :
    (classify o word).Spells word := by
  unfold classify
  split
  · exact .inl rfl
  · split
    · cases h : Token.reservedWord? (String.ofList word) with
      | none => exact .inl rfl
      | some t => exact .inr (Token.spelling?_of_reservedWord? h)
    · split <;> exact .inl rfl

theorem Word.within_read (o : LexicalOptions) (p : Position) (c : Char) (rest : List Char) :
    (Word.read o p c rest).Within p (c :: rest) := by
  have hstart : c :: rest.takeWhile (continues o) <+: c :: rest :=
    List.cons_prefix_cons.2 ⟨rfl, List.takeWhile_prefix _⟩
  refine ⟨hstart.length_le, fun d hd => ?_, ?_⟩
  · unfold Word.read at hd
    dsimp only at hd
    split at hd
    · rw [List.mem_singleton.1 hd]
      exact .start rfl ⟨rfl, rfl⟩
    · cases hd
  · change (classify o _).Spells ((c :: rest).take (c :: rest.takeWhile (continues o)).length)
    rw [← List.prefix_iff_eq_take.1 hstart]
    exact spells_classify o _

/-! ## Numbers -/

namespace Number

theorem digitExtent_le (b : Base) (n : Nat) (cs : List Char) :
    (digitExtent b n cs).1 ≤ n + cs.length := by
  induction cs generalizing n with
  | nil => exact Nat.le_refl _
  | cons c cs ih =>
    have h := ih (n + 1)
    rw [digitExtent, List.length_cons]
    split
    · omega
    · split
      · split
        · omega
        · dsimp only; omega
      · dsimp only; omega

theorem within_digits (b : Base) (p : Position) (cs : List Char) :
    (digits b p cs).Within p cs := by
  have hle := digitExtent_le b 0 cs
  unfold digits
  rcases h : digitExtent b 0 cs with ⟨n, lacksDigit⟩
  rw [h] at hle
  refine ⟨by simpa using hle, fun d hd => ?_⟩
  cases lacksDigit with
  | false => cases hd
  | true =>
    rw [List.mem_singleton.1 hd]
    exact ⟨rfl, _, List.take_prefix n cs, Diagnostic.isAt_ofPosition _ _⟩

theorem within_someDigits {missing : Code} (h : missing.isOfGaps = false) (p : Position)
    (cs : List Char) : (someDigits missing p cs).Within p cs := by
  unfold someDigits
  split
  · exact within_digits .decimal p cs
  · refine ⟨Nat.zero_le _, fun d hd => ?_⟩
    rw [List.mem_singleton.1 hd]
    exact .start h (Diagnostic.isAt_ofPosition _ _)

theorem within_sign (p : Position) (cs : List Char) : (sign p cs).Within p cs := by
  unfold sign
  split
  · exact .skip (by simp)
  · exact .skip (by simp)
  · exact .skip (Nat.zero_le _)

theorem within_exponent (p : Position) (cs : List Char) : (exponent p cs).Within p cs := by
  have h (c : Char) (cs : List Char) :
      (((Rule.skip 1).andThen sign |>.andThen (someDigits .exponentWithoutDigit)) p
        (c :: cs)).Within p (c :: cs) :=
    (Stretch.Within.skip_andThen (by simp) within_sign).andThen (within_someDigits rfl _ _)
  unfold exponent
  split
  · exact h _ _
  · exact h _ _
  · exact .skip (Nat.zero_le _)

theorem within_fraction {cs : List Char} (p : Position) (h : 1 ≤ cs.length) :
    (fraction p cs).Within p cs :=
  (Stretch.Within.skip_andThen h (within_someDigits rfl)).andThen (within_exponent _ _)

theorem length_pos_of_startsFraction {cs : List Char} (h : startsFraction cs = true) :
    1 ≤ cs.length := by
  cases cs with
  | nil => cases h
  | cons c cs => simp

theorem within_based {b : Base} {t : Token} {c : Char} (behind : List Char) (p : Position) :
    ((based b t behind).2 p (c :: behind)).Within p (c :: behind) := by
  unfold based
  split
  · exact .skip_andThen (by simp) (within_digits b)
  · exact .skip (by simp)

theorem within_afterZero (p : Position) (rest : List Char) :
    ((afterZero rest).2 p rest).Within p rest := by
  unfold afterZero
  split
  · exact within_based _ _
  · exact within_based _ _
  · exact within_based _ _
  · split
    · exact within_fraction p (by simp)
    · split <;> exact .skip (Nat.zero_le _)
  · exact .skip (Nat.zero_le _)

theorem within_afterDigit (p : Position) (rest : List Char) :
    ((afterDigit rest).2 p rest).Within p rest := by
  unfold afterDigit
  split
  · next h =>
    exact (within_digits _ _ _).andThen (within_fraction _ (length_pos_of_startsFraction h))
  · exact within_digits _ _ _

theorem hasLexeme_based {b : Base} {t : Token} (ht : t.hasLexeme = true) (behind : List Char) :
    (based b t behind).1.hasLexeme = true := by
  unfold based
  split
  · exact ht
  · rfl

theorem hasLexeme_afterZero (rest : List Char) : (afterZero rest).1.hasLexeme = true := by
  unfold afterZero
  split
  · exact hasLexeme_based rfl _
  · exact hasLexeme_based rfl _
  · exact hasLexeme_based rfl _
  · split
    · rfl
    · split <;> rfl
  · rfl

theorem hasLexeme_afterDigit (rest : List Char) : (afterDigit rest).1.hasLexeme = true := by
  unfold afterDigit
  split <;> rfl

theorem within_read (p : Position) (c : Char) (rest : List Char) :
    (Number.read p c rest).Within p (c :: rest) := by
  have hrule : ((if c = '0' then afterZero rest else afterDigit rest).2 (p.next c) rest).Within
      (p.next c) rest ∧
      (if c = '0' then afterZero rest else afterDigit rest).1.hasLexeme = true := by
    split
    · exact ⟨within_afterZero _ _, hasLexeme_afterZero _⟩
    · exact ⟨within_afterDigit _ _, hasLexeme_afterDigit _⟩
  unfold Number.read
  rcases h : (if c = '0' then afterZero rest else afterDigit rest) with ⟨token, rule⟩
  rw [h] at hrule
  obtain ⟨⟨hle, hinside⟩, hlexeme⟩ := hrule
  have hreports : ∀ d ∈ (rule (p.next c) rest).reports, d.Inside p (c :: rest) :=
    fun d hd => (hinside d hd).cons
  dsimp only at hle hlexeme ⊢
  split
  · refine ⟨?_, fun d hd => ?_, .inl rfl⟩
    · have hjunk := (List.takeWhile_prefix (l := rest.drop (rule (p.next c) rest).length)
        Char.isAlphanum).length_le
      rw [List.length_drop] at hjunk
      dsimp only
      rw [List.length_cons]
      omega
    · rcases List.mem_append.1 hd with hd | hd
      · exact hreports d hd
      · rw [List.mem_singleton.1 hd]
        exact .start rfl ⟨rfl, rfl⟩
  · refine ⟨?_, hreports, .inl hlexeme⟩
    dsimp only
    rw [List.length_cons]
    omega

end Number

/-! ## Quoted literals -/

namespace Quoted

theorem inside_fault? {p : Position} {c : Char} {behind cs : List Char} {d : Diagnostic}
    (h : fault? p c behind = some d) : d.Inside p cs := by
  unfold fault? at h
  split at h
  · split at h
    · cases h
    · cases h
    · cases h
      exact .start rfl ⟨rfl, rfl⟩
  · split at h <;> cases h
    exact .start rfl ⟨rfl, rfl⟩

theorem inside_faults (quote : Char) (p : Position) (cs : List Char) :
    ∀ d ∈ faults quote p cs, d.Inside p cs := by
  induction cs generalizing p with
  | nil => exact fun d hd => by cases hd
  | cons c cs ih =>
    rw [faults]
    split
    · exact fun d hd => by cases hd
    · intro d hd
      rcases List.mem_append.1 hd with hd | hd
      · exact inside_fault? (Option.mem_toList.1 hd)
      · exact (ih _ d hd).cons

theorem within_read {quote : Char} (hq : IsQuote quote) (p : Position) (rest : List Char) :
    (Quoted.read p quote rest).Within p (quote :: rest) := by
  have hfaults : ∀ d ∈ faults quote (p.next quote) rest, d.Inside p (quote :: rest) :=
    fun d hd => (inside_faults quote _ rest d hd).cons
  have hbody : (rest.takeWhile (· != quote)).length ≤ rest.length :=
    (List.takeWhile_prefix _).length_le
  by_cases hclosed : (rest.takeWhile (· != quote)).length < rest.length
  · rw [read_eq_closed hq p hclosed]
    exact ⟨by dsimp only; rw [List.length_cons]; omega, hfaults, .inl rfl⟩
  · rw [read_eq_unclosed hq p hclosed]
    refine ⟨by dsimp only; rw [List.length_cons]; omega, fun d hd => ?_, .inl rfl⟩
    rcases List.mem_append.1 hd with hd | hd
    · exact hfaults d hd
    · rw [List.mem_singleton.1 hd]
      exact .start rfl (Diagnostic.isAt_ofPosition _ _)

end Quoted

/-! ## Comments and pragmas -/

namespace Comment

theorem length_extent_le (depth ignored n : Nat) (tooDeep : Option Nat) (cs : List Char) :
    (extent depth ignored n tooDeep cs).length ≤ n + cs.length := by
  fun_induction extent depth ignored n tooDeep cs <;> simp only [List.length_cons] at * <;> omega

theorem inside_readBlock (p : Position) (body : List Char) :
    ∀ d ∈ (readBlock p body).reports, d.Inside p ('(' :: '*' :: body) := by
  have hdeep (n : Nat) :
      (Diagnostic.ofPosition .commentTooDeep (((p.next '(').next '*').after (body.take n))).Inside p
        ('(' :: '*' :: body) :=
    .cons (.cons ⟨rfl, _, List.take_prefix n body, Diagnostic.isAt_ofPosition _ _⟩)
  have hopen : (Diagnostic.ofPosition .unterminatedComment p).Inside p ('(' :: '*' :: body) :=
    .start rfl (Diagnostic.isAt_ofPosition _ _)
  unfold readBlock
  dsimp only
  cases (extent 1 0 0 none body).tooDeep <;> cases (extent 1 0 0 none body).closed <;>
    simp [hdeep, hopen]

theorem within_readBlock (p : Position) (body : List Char) :
    (readBlock p body).Within p ('(' :: '*' :: body) := by
  have hle := length_extent_le 1 0 0 none body
  refine ⟨?_, inside_readBlock p body, ?_⟩
  · unfold readBlock
    dsimp only
    split <;> dsimp only [List.length_cons] <;> omega
  · unfold readBlock
    dsimp only
    split <;> exact .inl rfl

theorem within_readLine (p : Position) (c : Char) (rest : List Char) :
    (readLine rest).Within p (c :: rest) := by
  refine ⟨?_, fun d hd => (by cases hd), .inl rfl⟩
  exact Nat.succ_le_succ (List.takeWhile_prefix _).length_le

theorem pragmaExtent_le (n : Nat) (cs : List Char) :
    (pragmaExtent n cs).1 ≤ n + cs.length := by
  fun_induction pragmaExtent n cs <;> simp only [List.length_cons] at * <;> omega

theorem within_readPragma (p : Position) (body : List Char) :
    (readPragma p body).Within p ('<' :: '*' :: body) := by
  have hle := pragmaExtent_le 0 body
  unfold readPragma
  rcases h : pragmaExtent 0 body with ⟨n, closed⟩
  rw [h] at hle
  dsimp only at hle
  cases closed with
  | true => exact ⟨by dsimp only [List.length_cons]; omega, fun d hd => (by cases hd), .inl rfl⟩
  | false =>
    refine ⟨by dsimp only [List.length_cons]; omega, fun d hd => ?_, .inl rfl⟩
    rw [List.mem_singleton.1 hd]
    exact .start rfl (Diagnostic.isAt_ofPosition _ _)

end Comment

/-! ## Special symbols -/

namespace Special

theorem spelling?_of_single? {c : Char} {t : Token} (h : single? c = some t) :
    t.spelling? = some (String.ofList [c]) := by
  unfold single? at h
  split at h <;> cases h <;> rfl

theorem spelling?_of_double? {c d : Char} {t : Token} (h : double? c d = some t) :
    t.spelling? = some (String.ofList [c, d]) := by
  unfold double? at h
  split at h <;> cases h <;> rfl

theorem within_read? {p : Position} {c : Char} {rest : List Char} {r : Reading}
    (h : read? c rest = some r) : r.Within p (c :: rest) := by
  unfold read? at h
  split at h
  · next t ht =>
    cases h
    obtain ⟨d, hd, hdouble⟩ := Option.bind_eq_some_iff.1 ht
    cases rest with
    | nil => cases hd
    | cons e rest =>
      cases hd
      exact ⟨by simp, fun d hd => (by cases hd), .inr (spelling?_of_double? hdouble)⟩
  · obtain ⟨t, ht, rfl⟩ := Option.map_eq_some_iff.1 h
    exact ⟨by simp, fun d hd => (by cases hd), .inr (spelling?_of_single? ht)⟩

end Special

/-! ## All symbols -/

/-- A symbol is read from characters that are there, its faults are found in it, and its token
settles what its text may be. -/
theorem Chunk.within_read? {o : LexicalOptions} {p : Position} {c : Char} {rest : List Char}
    {r : Reading} (h : read? o p c rest = some r) : r.Within p (c :: rest) := by
  unfold read? at h
  split at h
  · cases h; exact Word.within_read o p c rest
  · split at h
    · cases h; exact Number.within_read p c rest
    · split at h
      · cases h; exact Quoted.within_read (.inl rfl) p _
      · cases h; exact Quoted.within_read (.inr rfl) p _
      · cases h; exact Comment.within_readLine p _ _
      · cases h; exact Comment.within_readBlock p _
      · cases h; exact Comment.within_readPragma p _
      · exact Special.within_read? h

end Modula
