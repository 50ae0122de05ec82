import Mathlib.Data.List.TakeWhile
import Modula.Proofs.Pieces

/-!
# What is between the symbols

A source is made up of its symbols and of gaps: blanks, stray characters and blocks of disabled
code. A gap has the faults that are found in it, and no symbol has faults of their kinds. So the
account of a source, its symbols and gaps from its start to its end, holds every character once,
and says which of the faults are those of gaps.
-/

namespace Modula

open Chunk

/-- Characters that are taken one by one up to a line feed at the latest. -/
theorem lineFeed_notMem_takeWhile {q : Char → Bool} (h : q '\n' = false) (cs : List Char) :
    '\n' ∉ cs.takeWhile q := by
  intro hm
  rw [List.mem_takeWhile_imp hm] at h
  cases h

/-! ## Disabled code -/

namespace Comment

/-- What ends disabled code: the start of a line that starts with `?>`. -/
def closer : List Char := ['\n', '?', '>']

/-- No part of a text in front of `front` is followed by the end of disabled code. -/
def IsFirst (front text : List Char) : Prop :=
  ∀ a b, text = a ++ closer ++ b → front.length ≤ a.length

/-- The end of a line is behind some characters. -/
def EndsLine (behind : List Char) : Prop := behind = [] ∨ behind.head? = some '\n'

/-- Disabled code with an end goes on to the end of the first line that can end it. -/
theorem exists_of_disabledExtent?_eq_some {n m : Nat} {cs : List Char}
    (h : disabledExtent? n cs = some m) :
    ∃ front line behind, cs = front ++ closer ++ line ++ behind ∧
      m = n + (front ++ closer ++ line).length ∧ IsFirst front cs ∧ '\n' ∉ line ∧
      EndsLine behind := by
  fun_induction disabledExtent? n cs with
  | case1 n cs =>
    refine ⟨[], cs.takeWhile (· != '\n'), cs.dropWhile (· != '\n'), ?_, ?_, ?_, ?_, ?_⟩
    · simp [closer]
    · rw [← Option.some.inj h]
      simp [closer]
      omega
    · exact fun _ _ _ => Nat.zero_le _
    · exact lineFeed_notMem_takeWhile rfl cs
    · have := List.head?_dropWhile_not (p := (· != '\n')) cs
      cases hd : cs.dropWhile (· != '\n') with
      | nil => exact .inl rfl
      | cons d ds =>
        rw [hd] at this
        exact .inr (by simpa using this)
  | case2 n c cs hclose ih =>
    obtain ⟨front, line, behind, hcs, hm, hfirst, hline, hend⟩ := ih h
    refine ⟨c :: front, line, behind, by simp [hcs], ?_, ?_, hline, hend⟩
    · rw [hm]
      simp
      omega
    · intro a b hab
      cases a with
      | nil =>
        obtain ⟨rfl, hcs'⟩ := List.cons.inj hab
        exact absurd hcs' (hclose b rfl)
      | cons d a =>
        exact Nat.succ_le_succ (hfirst a b (List.cons.inj hab).2)
  | case3 => cases h

/-- Disabled code without an end has no line that can end it. -/
theorem ne_of_disabledExtent?_eq_none {n : Nat} {cs : List Char} (h : disabledExtent? n cs = none)
    (a b : List Char) : cs ≠ a ++ closer ++ b := by
  fun_induction disabledExtent? n cs generalizing a with
  | case1 n cs => cases h
  | case2 n c cs hclose ih =>
    intro hab
    cases a with
    | nil =>
      obtain ⟨rfl, hcs'⟩ := List.cons.inj hab
      exact hclose b rfl hcs'
    | cons d a => exact ih h a (List.cons.inj hab).2
  | case3 => simp [closer]

end Comment

/-! ## Gaps -/

open Comment in
/-- Text between symbols that stands at a position, in front of the text behind it, with the faults
that are found in it. -/
inductive Gap (o : LexicalOptions) (p : Position) :
    List Char → List Char → List Diagnostic → Prop
  | blank {c : Char} (behind : List Char) (hc : isBlank c = true) : Gap o p [c] behind []
  /-- A character that starts no symbol. -/
  | stray {c : Char} (behind : List Char) (hc : isBlank c = false)
    (hread : ∀ q rest, read? o q c rest = none) : Gap o p [c] behind [strayReport p c]
  /-- Disabled code up to the end of the first line that can end it. -/
  | disabled {front line behind : List Char} (hp : p.column = 1) (hopen : ['?', '<'] <+: front)
    (hfirst : IsFirst front (front ++ closer ++ line ++ behind)) (hline : '\n' ∉ line)
    (hend : EndsLine behind) : Gap o p (front ++ closer ++ line) behind []
  /-- Disabled code up to the end of the source, where no line can end it. -/
  | unended {text : List Char} (hp : p.column = 1) (hopen : ['?', '<'] <+: text)
    (hnone : ∀ a b, text ≠ a ++ closer ++ b) :
    Gap o p text [] [.ofPosition .unterminatedDisabled p]

/-- The account of a text that stands at a position: its symbols and its gaps, in order, with the
faults of the gaps. -/
inductive Accounts (o : LexicalOptions) :
    Position → List Char → List Symbol → List Diagnostic → Prop
  | done (p : Position) : Accounts o p [] [] []
  | gap {p : Position} {text behind : List Char} {ss : List Symbol} {ds es : List Diagnostic}
    (h : Gap o p text behind ds) (later : Accounts o (p.after text) behind ss es) :
    Accounts o p (text ++ behind) ss (ds ++ es)
  | symbol {p : Position} {text behind : List Char} {ss : List Symbol} {es : List Diagnostic}
    (t : Token) (hne : text ≠ []) (later : Accounts o (p.after text) behind ss es) :
    Accounts o p (text ++ behind) (⟨t, String.ofList text, p⟩ :: ss) es
  /-- A word with an apostrophe directly behind it, which is a stray character there. -/
  | word {p : Position} {c : Char} {text behind : List Char} {ss : List Symbol}
    {es : List Diagnostic} (t : Token) (hc : c.isAlpha = true)
    (later : Accounts o (p.after (c :: text ++ ['\x27'])) behind ss es) :
    Accounts o p (c :: text ++ ['\x27'] ++ behind) (⟨t, String.ofList (c :: text), p⟩ :: ss)
      (strayReport (p.after (c :: text)) '\x27' :: es)

namespace Accounts

variable {o : LexicalOptions} {p : Position} {text behind : List Char} {ss : List Symbol}
  {ds : List Diagnostic}

theorem blanks {front : List Char} (hfront : ∀ c ∈ front, isBlank c = true)
    (h : Accounts o (p.after front) behind ss ds) : Accounts o p (front ++ behind) ss ds := by
  induction front generalizing p with
  | nil => exact h
  | cons c front ih =>
    obtain ⟨hc, hfront⟩ := List.forall_mem_cons.1 hfront
    exact .gap (.blank _ hc) (ih hfront h)

/-- Every stray character that is reported stands in the text, where the report says. -/
theorem exists_stray (h : Accounts o p text ss ds) {d : Diagnostic} (hd : d ∈ ds)
    (hcode : d.code = .illegalCharacter) :
    ∃ front c behind, text = front ++ c :: behind ∧ d = strayReport (p.after front) c := by
  induction h with
  | done p => cases hd
  | @gap p text behind ss ds es hgap later ih =>
    rcases List.mem_append.1 hd with hd | hd
    · cases hgap with
      | blank behind hc => cases hd
      | stray behind hc hread => exact ⟨[], _, behind, rfl, List.mem_singleton.1 hd⟩
      | disabled hp hopen hfirst hline hend => cases hd
      | unended hp hopen hnone =>
        rw [List.mem_singleton.1 hd] at hcode
        cases hcode
    · obtain ⟨front, c, rest, rfl, hstray⟩ := ih hd
      exact ⟨text ++ front, c, rest, by simp, by rw [Position.after_append, hstray]⟩
  | @symbol p text behind ss es t hne later ih =>
    obtain ⟨front, c, rest, rfl, hstray⟩ := ih hd
    exact ⟨text ++ front, c, rest, by simp, by rw [Position.after_append, hstray]⟩
  | @word p c text behind ss es t hc later ih =>
    rcases List.mem_cons.1 hd with rfl | hd
    · exact ⟨c :: text, '\x27', behind, by simp, rfl⟩
    · obtain ⟨front, d', rest, rfl, hstray⟩ := ih hd
      exact ⟨c :: text ++ ['\x27'] ++ front, d', rest, by simp,
        by rw [Position.after_append, hstray]⟩

end Accounts

/-! ## The account of a source -/

/-- The faults that are faults of gaps. -/
def ofGaps (ds : List Diagnostic) : List Diagnostic := ds.filter (·.code.isOfGaps)

namespace Chunk

variable {o : LexicalOptions} {p : Position} {c : Char} {rest behind : List Char}
  {ss : List Symbol} {ds : List Diagnostic}

theorem single?_eq_none_of_read? (h : Special.read? c rest = none) : Special.single? c = none := by
  unfold Special.read? at h
  split at h
  · cases h
  · exact Option.map_eq_none_iff.1 h

theorem read?_of_single?_eq_none (h : Special.single? c = none) (rest : List Char) :
    Special.read? c rest = none := by
  have hdouble (d : Char) : Special.double? c d = none := by
    unfold Special.double?
    split <;> first | rfl | cases h
  unfold Special.read?
  cases rest with
  | nil => rw [h]; rfl
  | cons d rest =>
    rw [List.head?_cons, Option.bind_some, hdouble, h]
    rfl

/-- A character that starts no symbol in one place starts none anywhere. -/
theorem read?_eq_none (h : read? o p c rest = none) (q : Position) (rest' : List Char) :
    read? o q c rest' = none := by
  unfold read? at h ⊢
  split at h
  · cases h
  next hword =>
  split at h
  · cases h
  next hdigit =>
  rw [if_neg hword, if_neg hdigit]
  split at h <;> try cases h
  next hquote hdouble hline _ _ =>
  have hnone := single?_eq_none_of_read? h
  split
  · exact absurd rfl hquote
  · exact absurd rfl hdouble
  · exact absurd rfl hline
  · cases hnone
  · cases hnone
  · exact read?_of_single?_eq_none hnone _

open Comment in
/-- Disabled code is a gap. -/
theorem gap_disabled {cs : List Char} (hp : p.column = 1) (hopen : ['?', '<'] <+: cs) :
    Gap o p (cs.take (disabled p cs).length) (cs.drop (disabled p cs).length)
      (ofGaps (disabled p cs).reports) := by
  unfold disabled
  split
  · next n hn =>
    obtain ⟨front, line, behind, rfl, rfl, hfirst, hline, hend⟩ :=
      exists_of_disabledExtent?_eq_some hn
    rw [Nat.zero_add, List.take_left, List.drop_left]
    refine .disabled hp ?_ hfirst hline hend
    -- the opener is in front of the line feed
    obtain ⟨later, hlater⟩ := hopen
    match front with
    | [] => simp [closer] at hlater
    | [d] => simp [closer] at hlater
    | d :: e :: front =>
      simp only [List.cons_append, List.cons.injEq] at hlater
      obtain ⟨rfl, rfl, -⟩ := hlater
      exact ⟨front, rfl⟩
  · next hn =>
    rw [List.take_length, List.drop_length]
    exact .unended hp hopen (ne_of_disabledExtent?_eq_none hn)

theorem length_pos_disabled (p : Position) (c : Char) (cs : List Char) :
    0 < (Comment.disabled p (c :: cs)).length := by
  unfold Comment.disabled
  split
  · next n hn =>
    obtain ⟨front, line, behind, -, rfl, -⟩ := Comment.exists_of_disabledExtent?_eq_some hn
    rw [List.length_append, List.length_append]
    exact Nat.add_pos_right _ (Nat.add_pos_left (Nat.add_pos_right _ (Nat.succ_pos _)) _)
  · exact Nat.succ_pos _

@[simp]
theorem extent_idle (p : Position) (c : Char) (behind : List Char) (reports : List Diagnostic) :
    (idle p c behind reports).extent = c :: behind := List.append_nil _

/-- None of the faults of a symbol is one of a gap. -/
theorem ofGaps_of_within {r : Reading} (h : r.Within p (c :: rest)) : ofGaps r.reports = [] :=
  List.filter_eq_nil_iff.2 fun d hd => by simp [(h.inside d hd).own]

/-- The account of a text that starts with a symbol. -/
theorem accounts_ofReading {r : Reading} (h : r.Within p (c :: rest))
    (later : Accounts o (p.after (ofReading p c rest r).extent) behind ss ds) :
    Accounts o p ((ofReading p c rest r).extent ++ behind)
      ((ofReading p c rest r).asSymbol?.toList ++ ss)
      (ofGaps (ofReading p c rest r).reports ++ ds) := by
  obtain ⟨n, hn⟩ := Nat.exists_eq_add_one_of_ne_zero (Nat.ne_of_gt r.length_pos)
  have htext : (ofReading p c rest r).text = c :: rest.take n := by
    change (c :: rest).take r.length = _
    rw [hn, List.take_succ_cons]
  have hsymbol : (ofReading p c rest r).asSymbol? =
      some ⟨r.token, String.ofList (c :: rest.take n), p⟩ := by
    rw [asSymbol?, htext]
    rfl
  rw [extent, htext] at later ⊢
  rw [hsymbol]
  by_cases hstray : (c.isAlpha && ((c :: rest).drop r.length).head? == some '\x27') = true
  · have hdropped : (ofReading p c rest r).dropped = ['\x27'] := if_pos hstray
    have hreports : (ofReading p c rest r).reports =
        r.reports ++ [strayReport (p.after (ofReading p c rest r).text) '\x27'] := if_pos hstray
    rw [hdropped] at later ⊢
    rw [hreports, htext, ofGaps, List.filter_append, ← ofGaps, ofGaps_of_within h]
    exact .word r.token (Bool.and_eq_true_iff.1 hstray).1 later
  · have hdropped : (ofReading p c rest r).dropped = [] := if_neg hstray
    have hreports : (ofReading p c rest r).reports = r.reports := if_neg hstray
    rw [hdropped, List.append_nil] at later ⊢
    rw [hreports, ofGaps_of_within h]
    exact .symbol r.token (List.cons_ne_nil _ _) later

/-- The account of a text, given the account of what is behind its first piece. -/
theorem accounts_of_first (htext : c :: rest = (first o p c rest).extent ++ behind)
    (later : Accounts o (p.after (first o p c rest).extent) behind ss ds) :
    Accounts o p (c :: rest) ((first o p c rest).asSymbol?.toList ++ ss)
      (ofGaps (first o p c rest).reports ++ ds) := by
  have harises := arises_first o p c rest
  generalize first o p c rest = k at harises htext later ⊢
  rw [htext]
  cases harises with
  | blanks hc =>
    rw [extent_idle] at later ⊢
    refine .blanks (List.forall_mem_cons.2 ⟨hc, ?_⟩) later
    exact List.all_eq_true.1 List.all_takeWhile
  | disabled hc hp hrest =>
    obtain ⟨n, hn⟩ := Nat.exists_eq_add_one_of_ne_zero
      (Nat.ne_of_gt (length_pos_disabled p c rest))
    have hopen : ['?', '<'] <+: c :: rest := by
      cases rest with
      | nil => cases hrest
      | cons d rest =>
        cases hrest
        exact ⟨rest, by rw [hc]; rfl⟩
    have hgap := gap_disabled (o := o) hp hopen
    have htake : c :: rest.take ((Comment.disabled p (c :: rest)).length - 1) =
        (c :: rest).take (Comment.disabled p (c :: rest)).length := by
      rw [hn, List.take_succ_cons, Nat.add_sub_cancel]
    rw [extent_idle, htake] at later htext ⊢
    have hbehind : (c :: rest).drop (Comment.disabled p (c :: rest)).length = behind :=
      List.append_cancel_left ((List.take_append_drop _ _).trans htext)
    rw [hbehind] at hgap
    exact .gap hgap later
  | @symbol r hc hr => exact accounts_ofReading (within_read? hr) later
  | stray hc hr =>
    rw [extent_idle] at later ⊢
    exact .gap (.stray _ hc (read?_eq_none hr)) later

/-- Every text has an account, with the symbols and the faults of its pieces. -/
theorem accounts_cut (o : LexicalOptions) (p : Position) (text : List Char) :
    Accounts o p text ((cut o p text).filterMap asSymbol?)
      (ofGaps ((cut o p text).flatMap reports)) := by
  induction p, text using cut_induction o with
  | nil p =>
    rw [cut_nil]
    exact .done p
  | cons p c rest behind htext ih =>
    rw [filterMap_cut_of_extent _ htext, reports_cut_of_extent htext, ofGaps, List.filter_append]
    exact accounts_of_first htext ih

end Chunk

end Modula
