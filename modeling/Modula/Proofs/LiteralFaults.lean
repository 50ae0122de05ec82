import Modula.Proofs.Arrivals

/-!
# What is wrong with quoted literals

A literal ends at the first quote of its form, and its faults are those of the characters in
between, one by one and in their order. Which character is at fault is told by the character itself
and, for a backslash, by the one behind it, be that the closing quote or a control character that is
at fault too. Control characters are single bytes, and no byte of another character is one.
-/

namespace Modula.Quoted

/-- What is wrong with the first character of a text, which stands at a position in a literal. -/
inductive IsFault (p : Position) : List Char → Diagnostic → Prop
  /-- A backslash that starts no escape; the report has the character behind it. -/
  | escape {behind : List Char} (hn : behind.head? ≠ some 'n') (ht : behind.head? ≠ some 't') :
    IsFault p ('\\' :: behind) { Diagnostic.ofPosition .invalidEscape p with char := behind.head? }
  /-- A control character, which the report has. -/
  | control {c : Char} (behind : List Char) (hc : c.toNat ≤ 0x1F ∨ c.toNat = 0x7F) :
    IsFault p (c :: behind) { Diagnostic.ofPosition .controlCharacter p with char := c }

/-- A byte that is a control character. -/
def isControlByte (b : UInt8) : Bool := b.toNat ≤ 0x1F || b.toNat = 0x7F

/-- The first fault is found in front of the second one. -/
def InFrontOf (d e : Diagnostic) : Prop := d.line < e.line ∨ d.line = e.line ∧ d.column < e.column

/-- The reports are those of the characters of a body that stands at a position, in front of the
text behind it: one for each fault, in their order. -/
structure Lists (p : Position) (body behind : List Char) (ds : List Diagnostic) : Prop where
  mem_iff : ∀ d, d ∈ ds ↔ ∃ front c back, body = front ++ c :: back ∧
    IsFault (p.after front) (c :: back ++ behind) d
  ordered : ds.Pairwise InFrontOf
  /-- There is one report of a control character for each byte that is one, and it has the byte. -/
  controls : (ds.filter (·.code = .controlCharacter)).map Diagnostic.char =
    ((Text.encode body).filter isControlByte).map fun b => some (Char.ofNat b.toNat)

/-! ## One character -/

theorem isControl_iff {c : Char} : isControl c = true ↔ c.toNat ≤ 0x1F ∨ c.toNat = 0x7F := by
  simp [isControl]

theorem fault?_eq_some_iff {p : Position} {c : Char} {behind : List Char} {d : Diagnostic} :
    fault? p c behind = some d ↔ IsFault p (c :: behind) d := by
  constructor
  · intro h
    unfold fault? at h
    split at h
    · next hc =>
      subst hc
      split at h
      · cases h
      · cases h
      · next hn ht =>
        cases h
        exact .escape hn ht
    · split at h
      · next hcontrol =>
        cases h
        exact .control behind (isControl_iff.1 hcontrol)
      · cases h
  · intro h
    cases h with
    | escape hn ht =>
      rw [fault?, if_pos rfl]
      split
      · next hhead => exact absurd hhead hn
      · next hhead => exact absurd hhead ht
      · rfl
    | control behind hc =>
      have hbackslash : c ≠ '\\' := by
        rintro rfl
        revert hc
        decide
      rw [fault?, if_neg hbackslash, if_pos (isControl_iff.2 hc)]

theorem IsFault.isAt {p : Position} {cs : List Char} {d : Diagnostic} (h : IsFault p cs d) :
    d.IsAt p := by
  cases h <;> exact ⟨rfl, rfl⟩

theorem inFrontOf_of_before {p q : Position} {d e : Diagnostic} (hd : d.IsAt p) (he : e.IsAt q)
    (h : p.Before q) : InFrontOf d e := by
  rw [InFrontOf, hd.1, hd.2, he.1, he.2]
  exact h.place

/-- A control character is one byte, and no byte of another character is a control character. -/
theorem filter_utf8EncodeChar (c : Char) :
    (String.utf8EncodeChar c).filter isControlByte =
      if isControl c then [UInt8.ofNat c.toNat] else [] := by
  have hlarge (n : Nat) (hn : 0x7F < n % 256) : ¬ isControlByte (UInt8.ofNat n) = true := by
    simp only [isControlByte, UInt8.toNat_ofNat', Bool.or_eq_true, decide_eq_true_eq]
    omega
  by_cases hone : c.val.toNat ≤ 0x7F
  · have hsame : isControlByte (UInt8.ofNat c.val.toNat) = isControl c := by
      rw [isControlByte, UInt8.toNat_ofNat', Nat.mod_eq_of_lt (by omega)]
      rfl
    rw [String.utf8EncodeChar, if_pos hone, List.filter_cons, hsame]
    rfl
  · have hmany : isControl c = false := by
      refine Bool.eq_false_iff.2 fun h => ?_
      have hsmall : c.val.toNat ≤ 0x1F ∨ c.val.toNat = 0x7F := isControl_iff.1 h
      omega
    rw [hmany, if_neg Bool.false_ne_true, List.filter_eq_nil_iff]
    simp only [String.utf8EncodeChar, if_neg hone]
    split
    · simp only [List.mem_cons, List.not_mem_nil, or_false]
      rintro b (rfl | rfl) <;> exact hlarge _ (by omega)
    · split
      · simp only [List.mem_cons, List.not_mem_nil, or_false]
        rintro b (rfl | rfl | rfl) <;> exact hlarge _ (by omega)
      · simp only [List.mem_cons, List.not_mem_nil, or_false]
        rintro b (rfl | rfl | rfl | rfl) <;> exact hlarge _ (by omega)

/-- A control character is reported as the byte that it is. -/
theorem controls_fault? (p : Position) (c : Char) (behind : List Char) :
    ((fault? p c behind).toList.filter (·.code = .controlCharacter)).map Diagnostic.char =
      ((String.utf8EncodeChar c).filter isControlByte).map fun b => some (Char.ofNat b.toNat) := by
  rw [filter_utf8EncodeChar]
  unfold fault?
  by_cases hc : c = '\\'
  · subst hc
    rw [if_pos rfl, if_neg (by decide)]
    split <;> rfl
  · rw [if_neg hc]
    by_cases hcontrol : isControl c = true
    · have hbyte : (UInt8.ofNat c.toNat).toNat = c.toNat := by
        have hsmall := isControl_iff.1 hcontrol
        rw [UInt8.toNat_ofNat', Nat.mod_eq_of_lt (by omega)]
      rw [if_pos hcontrol, if_pos hcontrol, List.map_singleton, hbyte, Char.ofNat_toNat]
      rfl
    · rw [if_neg hcontrol, if_neg hcontrol]
      rfl

/-! ## All characters of a body -/

/-- The report of the first character, and then those of the others. -/
theorem Lists.cons {p : Position} {c : Char} {body behind : List Char} {ds : List Diagnostic}
    (h : Lists (p.next c) body behind ds) :
    Lists p (c :: body) behind ((fault? p c (body ++ behind)).toList ++ ds) := by
  obtain ⟨hmem, hordered, hcontrols⟩ := h
  refine ⟨fun d => ?_, ?_, ?_⟩
  · rw [List.mem_append, Option.mem_toList, fault?_eq_some_iff, hmem]
    constructor
    · rintro (hfirst | ⟨front, e, back, rfl, hlater⟩)
      · exact ⟨[], c, body, rfl, hfirst⟩
      · exact ⟨c :: front, e, back, rfl, hlater⟩
    · rintro ⟨front, e, back, hbody, hfault⟩
      cases front with
      | nil =>
        obtain ⟨rfl, rfl⟩ := List.cons.inj hbody
        exact .inl hfault
      | cons a front =>
        obtain ⟨rfl, rfl⟩ := List.cons.inj hbody
        exact .inr ⟨front, e, back, rfl, hfault⟩
  · refine List.pairwise_append.2 ⟨?_, hordered, fun d hd e he => ?_⟩
    · cases fault? p c (body ++ behind) with
      | none => exact .nil
      | some d => exact List.pairwise_singleton _ _
    · obtain ⟨front, a, back, -, hfault⟩ := (hmem e).1 he
      have hd := fault?_eq_some_iff.1 (Option.mem_toList.1 hd)
      have hbefore : p.Before (p.after (c :: front)) := p.before_after (List.cons_ne_nil _ _)
      exact inFrontOf_of_before hd.isAt hfault.isAt hbefore
  · have hencode : Text.encode (c :: body) = String.utf8EncodeChar c ++ Text.encode body := rfl
    rw [hencode, List.filter_append, List.filter_append, List.map_append, List.map_append,
      controls_fault?, hcontrols]

/-- What is reported up to the end of a literal lists the faults of its body. -/
theorem lists_faults {quote : Char} {body behind : List Char} (p : Position)
    (hbody : quote ∉ body) (hbehind : behind = [] ∨ behind.head? = some quote) :
    Lists p body behind (faults quote p (body ++ behind)) := by
  induction body generalizing p with
  | nil =>
    have hnone : faults quote p ([] ++ behind) = [] := by
      cases behind with
      | nil => rfl
      | cons c behind =>
        obtain rfl : c = quote := by simpa using hbehind
        rw [List.nil_append, faults, if_pos rfl]
    rw [hnone]
    refine ⟨fun d => ⟨fun hd => absurd hd List.not_mem_nil, ?_⟩, .nil, rfl⟩
    rintro ⟨front, c, back, hnil, -⟩
    cases front <;> cases hnil
  | cons c body ih =>
    rw [List.mem_cons, not_or] at hbody
    have hfaults : faults quote p (c :: body ++ behind) =
        (fault? p c (body ++ behind)).toList ++ faults quote (p.next c) (body ++ behind) := by
      rw [List.cons_append, faults, if_neg (Ne.symm hbody.1)]
    rw [hfaults]
    exact (ih _ hbody.2).cons

/-! ## Whole literals -/

/-- A run of characters that are no quote goes over all of a body. -/
theorem takeWhile_append_of_notMem {quote : Char} {body : List Char} (hbody : quote ∉ body)
    (behind : List Char) : (body ++ behind).takeWhile (· != quote) =
      body ++ behind.takeWhile (· != quote) := by
  refine List.takeWhile_append_of_pos fun c hc => ?_
  simpa using fun heq : c = quote => hbody (heq ▸ hc)

/-- What is read if there is a closing quote. -/
theorem read_of_closed {quote : Char} {body : List Char} (hq : IsQuote quote) (p : Position)
    (hbody : quote ∉ body) (behind : List Char) :
    (Quoted.read p quote (body ++ quote :: behind)).token = .quotedString ∧
      (Quoted.read p quote (body ++ quote :: behind)).length = body.length + 2 ∧
      (Quoted.read p quote (body ++ quote :: behind)).reports =
        faults quote (p.next quote) (body ++ quote :: behind) := by
  have hrun : ((body ++ quote :: behind).takeWhile (· != quote)).length = body.length := by
    rw [takeWhile_append_of_notMem hbody, List.takeWhile_cons_of_neg (by simp), List.append_nil]
  have hclosed : ((body ++ quote :: behind).takeWhile (· != quote)).length <
      (body ++ quote :: behind).length := by
    rw [hrun]
    simp
  rw [read_eq_closed hq p hclosed]
  exact ⟨rfl, congrArg (· + 2) hrun, rfl⟩

/-- What is read if there is no closing quote. -/
theorem read_of_unclosed {quote : Char} {rest : List Char} (hq : IsQuote quote) (p : Position)
    (hrest : quote ∉ rest) :
    (Quoted.read p quote rest).token = .malformedString ∧
      (Quoted.read p quote rest).length = rest.length + 1 ∧
      (Quoted.read p quote rest).reports =
        faults quote (p.next quote) rest ++ [.ofPosition .unterminatedQuoted p] := by
  have hrun : (rest.takeWhile (· != quote)).length = rest.length := by
    simpa using congrArg List.length (takeWhile_append_of_notMem hrest [])
  rw [read_eq_unclosed hq p (by rw [hrun]; exact Nat.lt_irrefl _)]
  exact ⟨rfl, congrArg (· + 1) hrun, rfl⟩

section

open Scanner

variable {o : LexicalOptions} {source : String} {s : Scanner}

/-- A quoted literal ends at the first quote of its form, whatever is in front of that. Without one
it has no end, which is reported last, and goes on to the end of the source. The other reports are
those of its characters, in their order: one for each backslash that starts no escape, and one for
each byte that is a control character. -/
theorem literal_ends_at_first_quote {quote : Char} {rest : List Char} (h : Arrives o source s)
    (hs : s.rest = quote :: rest) (hquote : quote = '\x27' ∨ quote = '\x22') :
    (∀ body behind, rest = body ++ quote :: behind → quote ∉ body →
      ∃ ds, Lists (s.position.next quote) body (quote :: behind) ds ∧
        Reads o source s
          ⟨.quotedString, String.ofList (quote :: body ++ [quote]), s.position⟩ ds) ∧
    (quote ∉ rest →
      ∃ ds, Lists (s.position.next quote) rest [] ds ∧
        Reads o source s ⟨.malformedString, String.ofList (quote :: rest), s.position⟩
          (ds ++ [.ofPosition .unterminatedQuoted s.position])) := by
  obtain ⟨o', p, cs⟩ := s
  obtain rfl : o' = o := h.options_eq
  obtain rfl : cs = quote :: rest := hs
  have hread : Chunk.read? o' p quote rest = some (Quoted.read p quote rest) := by
    rcases hquote with rfl | rfl <;> rfl
  have hstart : Chunk.isBlank quote = false ∧ quote.isAlpha = false := by
    rcases hquote with rfl | rfl <;> exact ⟨rfl, rfl⟩
  refine ⟨fun body behind hrest hbody => ?_, fun hnone => ?_⟩
  · subst hrest
    obtain ⟨htoken, hlength, hreports⟩ := read_of_closed hquote p hbody behind
    have htext : quote :: (body ++ quote :: behind) = quote :: body ++ [quote] ++ behind := by simp
    have hreads := h.reads hstart.1 hstart.2 hread htext (by rw [hlength]; simp)
    rw [htoken, hreports] at hreads
    exact ⟨_, lists_faults _ hbody (.inr rfl), hreads⟩
  · obtain ⟨htoken, hlength, hreports⟩ := read_of_unclosed hquote p hnone
    have hreads := h.reads hstart.1 hstart.2 hread (List.append_nil _).symm hlength
    rw [htoken, hreports] at hreads
    have hlists := lists_faults (p.next quote) hnone (.inl rfl)
    rw [List.append_nil] at hlists
    exact ⟨_, hlists, hreads⟩

/-- A backslash in front of the closing quote does not protect it. -/
theorem literal_ends_at_first_quote_backslash :
    Arrives ⟨false, false, false⟩ "'a\\' b'" (ofText ⟨false, false, false⟩ "'a\\' b'") ∧
    ("a\\' b'".toList = ['a', '\\'] ++ '\x27' :: " b'".toList ∧ '\x27' ∉ ['a', '\\']) ∧
    ∃ ds, Lists (Position.start.next '\x27') ['a', '\\'] ('\x27' :: " b'".toList) ds ∧
      Reads ⟨false, false, false⟩ "'a\\' b'" (ofText ⟨false, false, false⟩ "'a\\' b'")
        ⟨.quotedString, "'a\\'", .start⟩ ds := by
  have harrives : Arrives ⟨false, false, false⟩ "'a\\' b'"
      (ofText ⟨false, false, false⟩ "'a\\' b'") := .start
  have hrest : "a\\' b'".toList = ['a', '\\'] ++ '\x27' :: " b'".toList := by decide
  have hbody : '\x27' ∉ ['a', '\\'] := by decide
  exact ⟨harrives, ⟨hrest, hbody⟩,
    (literal_ends_at_first_quote harrives rfl (.inl rfl)).1 _ _ hrest hbody⟩

end

end Modula.Quoted
