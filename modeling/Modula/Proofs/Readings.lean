import Modula.Lexical.Chunk
import Modula.Proofs.Literals
import Modula.Proofs.ReservedWords

/-!
# What the lexical rules answer

A symbol that is read is never the end of the source, its faults are lexical ones, and a malformed
symbol has a fault. This is shown class by class and then for the pieces of a source.
-/

namespace Modula

/-- All of the faults are lexical ones. -/
def OnlyLexical (ds : List Diagnostic) : Prop := ∀ d ∈ ds, d.phase = .lexical

namespace OnlyLexical

theorem nil : OnlyLexical [] := by simp [OnlyLexical]

theorem singleton {d : Diagnostic} (h : d.phase = .lexical) : OnlyLexical [d] := by
  simpa [OnlyLexical] using h

theorem append {ds es : List Diagnostic} (hd : OnlyLexical ds) (he : OnlyLexical es) :
    OnlyLexical (ds ++ es) := by
  intro d hm
  rcases List.mem_append.1 hm with h | h
  · exact hd d h
  · exact he d h

end OnlyLexical

/-- What can be relied on about a symbol that was read. -/
structure Reading.Faithful (r : Reading) : Prop where
  token_ne : r.token ≠ .endOfFile
  lexical : OnlyLexical r.reports
  malformed : r.token.isMalformed = true → r.reports ≠ []

/-- The token of a symbol that needs no report. -/
def Token.IsPlain (t : Token) : Prop := t ≠ .endOfFile ∧ t.isMalformed = false

instance (t : Token) : Decidable t.IsPlain := inferInstanceAs (Decidable (_ ∧ _))

namespace Reading.Faithful

theorem ofPlain {r : Reading} (ht : r.token.IsPlain) (hl : OnlyLexical r.reports) :
    r.Faithful := by
  refine ⟨ht.1, hl, fun h => ?_⟩
  rw [ht.2] at h
  cases h

theorem ofReported {r : Reading} (ht : r.token ≠ .endOfFile) (ds : List Diagnostic)
    {d : Diagnostic} (hr : r.reports = ds ++ [d]) (hds : OnlyLexical ds)
    (hd : d.phase = .lexical) : r.Faithful := by
  refine ⟨ht, ?_, fun _ => ?_⟩
  · rw [hr]
    exact hds.append (.singleton hd)
  · rw [hr]
    simp

end Reading.Faithful

/-! ## Words -/

theorem Token.isPlain_of_isReservedWord {t : Token} (h : t.isReservedWord = true) :
    t.IsPlain := by
  revert h
  cases t <;> decide

theorem Word.classify_cases (o : LexicalOptions) (word : List Char) :
    classify o word = .malformedIdent ∨ (classify o word).IsPlain := by
  unfold classify
  split
  · exact .inl rfl
  · right
    split
    · cases h : Token.reservedWord? (String.ofList word) with
      | none => decide
      | some t =>
        exact Token.isPlain_of_isReservedWord (Token.reservedWord?_eq_some_iff.1 h).1
    · split <;> decide

theorem Word.faithful_read (o : LexicalOptions) (p : Position) (c : Char) (rest : List Char) :
    (Word.read o p c rest).Faithful := by
  unfold Word.read
  dsimp only
  rcases classify_cases o (c :: rest.takeWhile (continues o)) with h | h
  · rw [h]
    exact .ofReported (by simp) [] rfl .nil rfl
  · refine .ofPlain h ?_
    split
    · exact .singleton rfl
    · exact .nil

/-! ## Numbers -/

namespace Number

/-- A rule with lexical faults only. -/
def LexicalRule (f : Rule) : Prop := ∀ p cs, OnlyLexical (f p cs).reports

theorem lexicalRule_skip (n : Nat) : LexicalRule (Rule.skip n) := fun _ _ => .nil

theorem LexicalRule.andThen {f g : Rule} (hf : LexicalRule f) (hg : LexicalRule g) :
    LexicalRule (f.andThen g) := fun _ _ => (hf _ _).append (hg _ _)

theorem lexicalRule_digits (b : Base) : LexicalRule (digits b) := by
  intro p cs
  unfold digits
  split
  dsimp only
  split
  · exact .singleton rfl
  · exact .nil

theorem lexicalRule_someDigits (missing : Code) (h : missing.phase = .lexical) :
    LexicalRule (someDigits missing) := by
  intro p cs
  unfold someDigits
  split
  · exact lexicalRule_digits .decimal p cs
  · exact .singleton h

theorem lexicalRule_sign : LexicalRule sign := by
  intro p cs
  unfold sign
  split <;> exact .nil

theorem lexicalRule_exponent : LexicalRule exponent := by
  have h := ((lexicalRule_skip 1).andThen lexicalRule_sign).andThen
    (lexicalRule_someDigits .exponentWithoutDigit rfl)
  intro p cs
  unfold exponent
  split
  · exact h p _
  · exact h p _
  · exact .nil

theorem lexicalRule_fraction : LexicalRule fraction :=
  ((lexicalRule_skip 1).andThen (lexicalRule_someDigits .pointWithoutDigit rfl)).andThen
    lexicalRule_exponent

/-- A token for numbers, with a rule of lexical faults. -/
def Sound (x : Token × Rule) : Prop :=
  (x.1 = .malformedNumber ∨ x.1.IsPlain) ∧ LexicalRule x.2

theorem sound_based {b : Base} {t : Token} (ht : t.IsPlain) (behind : List Char) :
    Sound (based b t behind) := by
  unfold based
  split
  · exact ⟨.inr ht, (lexicalRule_skip 1).andThen (lexicalRule_digits b)⟩
  · exact ⟨.inl rfl, lexicalRule_skip 1⟩

theorem sound_afterZero (rest : List Char) : Sound (afterZero rest) := by
  have hreal : Token.realNumber.IsPlain := by decide
  have hwhole : Token.wholeNumber.IsPlain := by decide
  unfold afterZero
  split
  · exact sound_based hwhole _
  · exact sound_based hwhole _
  · exact sound_based (by decide) _
  · split
    · exact ⟨.inr hreal, lexicalRule_fraction⟩
    · split
      · exact ⟨.inl rfl, lexicalRule_skip 0⟩
      · exact ⟨.inr hwhole, lexicalRule_skip 0⟩
  · exact ⟨.inr hwhole, lexicalRule_skip 0⟩

theorem sound_afterDigit (rest : List Char) : Sound (afterDigit rest) := by
  have hreal : Token.realNumber.IsPlain := by decide
  have hwhole : Token.wholeNumber.IsPlain := by decide
  unfold afterDigit
  split
  · exact ⟨.inr hreal, (lexicalRule_digits .decimal).andThen lexicalRule_fraction⟩
  · exact ⟨.inr hwhole, lexicalRule_digits .decimal⟩

theorem faithful_read (p : Position) (c : Char) (rest : List Char) :
    (Number.read p c rest).Faithful := by
  have hs : Sound (if c = '0' then afterZero rest else afterDigit rest) := by
    split
    · exact sound_afterZero rest
    · exact sound_afterDigit rest
  unfold Number.read
  rcases h : (if c = '0' then afterZero rest else afterDigit rest) with ⟨token, rule⟩
  rw [h] at hs
  obtain ⟨htoken, hrule⟩ := hs
  dsimp only
  split
  · exact .ofReported (by simp) _ rfl (hrule _ _) rfl
  · next hw =>
    refine .ofPlain ?_ (hrule _ _)
    rcases htoken with ht | ht
    · exact absurd (.inl ht) hw
    · exact ht

end Number

/-! ## Quoted literals, comments and special symbols -/

theorem Quoted.lexical_faults (quote : Char) (p : Position) (cs : List Char) :
    OnlyLexical (faults quote p cs) := by
  induction cs generalizing p with
  | nil => exact .nil
  | cons c cs ih =>
    unfold faults
    split
    · exact .nil
    · refine .append (fun d hd => ?_) (ih _)
      have hd := Option.mem_toList.1 hd
      unfold fault? at hd
      split at hd
      · split at hd
        · cases hd
        · cases hd
        · cases hd; rfl
      · split at hd
        · cases hd; rfl
        · cases hd

theorem Quoted.faithful_read {quote : Char} (hq : IsQuote quote) (p : Position)
    (rest : List Char) : (Quoted.read p quote rest).Faithful := by
  by_cases hclosed : (rest.takeWhile (· != quote)).length < rest.length
  · rw [read_eq_closed hq p hclosed]
    exact .ofPlain (show Token.quotedString.IsPlain by decide) (lexical_faults _ _ _)
  · rw [read_eq_unclosed hq p hclosed]
    exact .ofReported (by simp) _ rfl (lexical_faults _ _ _) rfl

theorem Comment.faithful_readLine (rest : List Char) : (Comment.readLine rest).Faithful :=
  .ofPlain (show Token.lineComment.IsPlain by decide) .nil

theorem Comment.faithful_readBlock (p : Position) (body : List Char) :
    (Comment.readBlock p body).Faithful := by
  unfold readBlock
  dsimp only
  split
  · refine .ofPlain (show Token.blockComment.IsPlain by decide) ?_
    split
    · exact .nil
    · exact .singleton rfl
  · refine .ofReported (by simp) _ rfl ?_ rfl
    split
    · exact .nil
    · exact .singleton rfl

theorem Comment.faithful_readPragma (p : Position) (body : List Char) :
    (Comment.readPragma p body).Faithful := by
  unfold readPragma
  rcases pragmaExtent 0 body with ⟨n, closed⟩
  cases closed with
  | true => exact .ofPlain (show Token.pragma.IsPlain by decide) .nil
  | false => exact .ofReported (by simp) [] rfl .nil rfl

theorem Special.isSpecialSymbol_of_single? {c : Char} {t : Token} (h : single? c = some t) :
    t.isSpecialSymbol = true := by
  unfold single? at h
  split at h <;> cases h <;> rfl

theorem Special.isSpecialSymbol_of_double? {c d : Char} {t : Token} (h : double? c d = some t) :
    t.isSpecialSymbol = true := by
  unfold double? at h
  split at h <;> cases h <;> rfl

/-- What is read as a special symbol is one, and has no faults. -/
theorem Special.isSpecialSymbol_of_read? {c : Char} {rest : List Char} {r : Reading}
    (h : read? c rest = some r) : r.token.isSpecialSymbol = true ∧ r.reports = [] := by
  unfold read? at h
  split at h
  · next t ht =>
    cases h
    obtain ⟨d, -, hd⟩ := Option.bind_eq_some_iff.1 ht
    exact ⟨isSpecialSymbol_of_double? hd, rfl⟩
  · obtain ⟨t, ht, hr⟩ := Option.map_eq_some_iff.1 h
    cases hr
    exact ⟨isSpecialSymbol_of_single? ht, rfl⟩

theorem Token.isPlain_of_isSpecialSymbol {t : Token} (h : t.isSpecialSymbol = true) :
    t.IsPlain := by
  revert h
  cases t <;> decide

theorem Special.faithful_read? {c : Char} {rest : List Char} {r : Reading}
    (h : read? c rest = some r) : r.Faithful := by
  obtain ⟨ht, hr⟩ := isSpecialSymbol_of_read? h
  refine .ofPlain (Token.isPlain_of_isSpecialSymbol ht) ?_
  rw [hr]
  exact .nil

/-! ## Pieces -/

namespace Chunk

theorem faithful_read? {o : LexicalOptions} {p : Position} {c : Char} {rest : List Char}
    {r : Reading} (h : read? o p c rest = some r) : r.Faithful := by
  unfold read? at h
  split at h
  · cases h; exact Word.faithful_read o p c rest
  · split at h
    · cases h; exact Number.faithful_read p c rest
    · split at h
      · cases h; exact Quoted.faithful_read (.inl rfl) p _
      · cases h; exact Quoted.faithful_read (.inr rfl) p _
      · cases h; exact Comment.faithful_readLine _
      · cases h; exact Comment.faithful_readBlock p _
      · cases h; exact Comment.faithful_readPragma p _
      · exact Special.faithful_read? h

/-- What can be relied on about a piece of a source. -/
structure Faithful (k : Chunk) : Prop where
  token_ne : k.token? ≠ some .endOfFile
  lexical : OnlyLexical k.reports
  malformed : ∀ t, k.token? = some t → t.isMalformed = true → k.reports ≠ []

theorem faithful_idle (p : Position) (c : Char) (behind : List Char) {reports : List Diagnostic}
    (h : OnlyLexical reports) : (idle p c behind reports).Faithful :=
  ⟨by simp [idle], h, fun t ht => by simp [idle] at ht⟩

theorem faithful_ofReading (p : Position) (c : Char) (rest : List Char) {r : Reading}
    (h : r.Faithful) : (ofReading p c rest r).Faithful := by
  refine ⟨fun ht => h.token_ne (Option.some.inj ht), ?_, fun t ht hm => ?_⟩
  · unfold ofReading
    dsimp only
    split
    · exact h.lexical.append (.singleton rfl)
    · exact h.lexical
  · obtain rfl := Option.some.inj ht
    have hr := h.malformed hm
    unfold ofReading
    dsimp only
    split
    · simp
    · exact hr

theorem faithful_first (o : LexicalOptions) (p : Position) (c : Char) (rest : List Char) :
    (first o p c rest).Faithful := by
  unfold first
  split
  · exact faithful_idle p c _ .nil
  · split
    · refine faithful_idle p c _ ?_
      unfold Comment.disabled
      split
      · exact .nil
      · exact .singleton rfl
    · split
      · next r hr => exact faithful_ofReading p c rest (faithful_read? hr)
      · exact faithful_idle p c _ (.singleton rfl)

theorem faithful_of_mem_cut {o : LexicalOptions} {p : Position} {text : List Char} {k : Chunk}
    (h : k ∈ cut o p text) : k.Faithful := by
  match text with
  | [] => simp at h
  | c :: rest =>
    rw [cut_cons] at h
    rcases List.mem_cons.1 h with rfl | h
    · exact faithful_first o p c rest
    · exact faithful_of_mem_cut h
termination_by text.length
decreasing_by
  have := List.length_pos_iff.2 (first o p c rest).extent_ne_nil
  simp only [List.length_drop, List.length_cons]
  omega

end Chunk

end Modula
