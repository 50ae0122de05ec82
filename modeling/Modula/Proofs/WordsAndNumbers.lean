import Mathlib.Data.List.TakeDrop
import Mathlib.Data.List.TakeWhile
import Modula.Proofs.NumberGrammar
import Modula.Proofs.Readings
import Modula.Proofs.Rendering

/-!
# The grammar of words and numbers

A text is said to be alone as a token if the token with this text is all that there is in it, and
nothing is reported. The texts that are alone as a reserved word, as an identifier or as a number
are those that the grammar of words and the grammar of numbers have.
-/

namespace Modula

/-! ## The reserved words -/

namespace Token

/-- A reserved word is spelled with capitals, and is not without letters. -/
theorem all_isUpper_name {t : Token} (h : t.isReservedWord = true) :
    t.name.toList ≠ [] ∧ t.name.toList.all Char.isUpper = true := by
  revert t
  decide +kernel

theorem reservedWord?_eq_none_iff {text : List Char} :
    reservedWord? (String.ofList text) = none ↔
      ∀ t : Token, t.isReservedWord = true → t.name.toList ≠ text := by
  rw [Option.eq_none_iff_forall_ne_some]
  refine forall_congr' fun t => ?_
  have htext : t.name = String.ofList text ↔ t.name.toList = text :=
    ⟨fun h => h ▸ String.toList_ofList, fun h => h ▸ String.ofList_toList.symm⟩
  rw [Ne, reservedWord?_eq_some_iff, not_and, htext]

end Token

/-! ## Words -/

namespace Word

variable {o : LexicalOptions} {p : Position} {c : Char} {cs rest : List Char} {t : Token}

/-- Every separator of the text stands directly between two letters or digits. -/
def IsSeparated (o : LexicalOptions) (text : List Char) : Prop :=
  ∀ front c back, text = front ++ c :: back → o.allowsSeparator c = true →
    front.getLast?.any Char.isAlphanum = true ∧ back.head?.any Char.isAlphanum = true

/-- The word that is written so. -/
inductive Spelled (o : LexicalOptions) : Token → List Char → Prop
  | reserved {t : Token} (ht : t.isReservedWord = true) : Spelled o t t.name.toList
  | standard {c : Char} {cs : List Char} (hc : c.isAlpha = true)
    (hcs : ∀ d ∈ cs, d.isAlphanum = true)
    (hword : ∀ t : Token, t.isReservedWord = true → t.name.toList ≠ c :: cs) :
    Spelled o .stdIdent (c :: cs)
  | foreign {c : Char} {cs : List Char} (hc : c.isAlpha = true)
    (hcs : ∀ d ∈ cs, d.isAlphanum = true ∨ o.allowsSeparator d = true)
    (hsome : ∃ d ∈ cs, o.allowsSeparator d = true) (hseparated : IsSeparated o (c :: cs)) :
    Spelled o .foreignIdent (c :: cs)

/-- A letter or a digit separates nothing. -/
theorem allowsSeparator_eq_false (h : c.isAlphanum = true) : o.allowsSeparator c = false := by
  have hlowline : c ≠ '_' := by rintro rfl; cases h
  have hdollar : c ≠ '$' := by rintro rfl; cases h
  simp [LexicalOptions.allowsSeparator, hlowline, hdollar]

/-- Every separator of `cs` stands directly between two letters or digits, given what is in front
of `cs`. -/
def IsSeparatedBehind (o : LexicalOptions) (before cs : List Char) : Prop :=
  ∀ front c back, cs = front ++ c :: back → o.allowsSeparator c = true →
    (before ++ front).getLast?.any Char.isAlphanum = true ∧
      back.head?.any Char.isAlphanum = true

theorem isSeparatedBehind_cons_iff {before : List Char} :
    IsSeparatedBehind o before (c :: cs) ↔
      (o.allowsSeparator c = true → before.getLast?.any Char.isAlphanum = true ∧
        cs.head?.any Char.isAlphanum = true) ∧ IsSeparatedBehind o (before ++ [c]) cs := by
  constructor
  · intro h
    refine ⟨fun hc => ?_, fun front d back hcs hd => ?_⟩
    · have := h [] c cs rfl hc
      rwa [List.append_nil] at this
    · have := h (c :: front) d back (by rw [hcs]; rfl) hd
      rwa [List.append_cons] at this
  · rintro ⟨hc, hcs⟩ front d back hsplit hd
    cases front with
    | nil =>
      obtain ⟨rfl, rfl⟩ := List.cons.inj hsplit
      rw [List.append_nil]
      exact hc hd
    | cons e front =>
      obtain ⟨rfl, hlater⟩ := List.cons.inj hsplit
      rw [List.append_cons]
      exact hcs front d back hlater hd

/-- Whether separators are spaced out, in a text that goes on a word. -/
theorem isSpaced_iff {before : List Char} (hcs : ∀ d ∈ cs, continues o d = true) :
    isSpaced o.allowsSeparator (before.getLast?.any Char.isAlphanum) cs = true ↔
      (before.getLast?.any Char.isAlphanum = true ∨ cs.head?.any Char.isAlphanum = true) ∧
        IsSeparatedBehind o before cs := by
  induction cs generalizing before with
  | nil =>
    have hnone : IsSeparatedBehind o before [] := fun front d back h => by simp at h
    simp [isSpaced, hnone]
  | cons c cs ih =>
    obtain ⟨hc, hcs⟩ := List.forall_mem_cons.1 hcs
    have ih := @ih (before ++ [c]) hcs
    rw [List.getLast?_concat, Option.any_some] at ih
    rw [isSpaced, isSeparatedBehind_cons_iff, List.head?_cons, Option.any_some]
    by_cases hletter : c.isAlphanum = true
    · have hsep : o.allowsSeparator c = false := allowsSeparator_eq_false hletter
      rw [hletter] at ih
      rw [hsep, if_neg Bool.false_ne_true, ih, hletter]
      simp
    · have hsep : o.allowsSeparator c = true := by simpa [continues, hletter] using hc
      rw [Bool.not_eq_true] at hletter
      rw [hletter] at ih
      rw [if_pos hsep, Bool.and_eq_true, ih, hletter]
      simp only [Bool.false_eq_true, false_or, or_false, hsep, forall_const, and_assoc,
        and_self_left]

theorem isAlpha_of_isUpper (h : c.isUpper = true) : c.isAlpha = true :=
  Bool.or_eq_true_iff.2 (.inl h)

theorem isAlphanum_of_isAlpha (h : c.isAlpha = true) : c.isAlphanum = true :=
  Bool.or_eq_true_iff.2 (.inl h)

theorem isAlpha_eq_false (h : c.isDigit = true) : c.isAlpha = false := by
  have hnine : c.val ≤ '9'.val := of_decide_eq_true (Bool.and_eq_true_iff.1 h).2
  -- the digits come in front of all letters
  have hno {a : Char} (ha : '9'.val < a.val) : ¬a.val ≤ c.val := fun hle =>
    UInt32.not_le.2 ha (UInt32.le_trans hle hnine)
  refine Bool.eq_false_iff.2 fun halpha => ?_
  rcases Bool.or_eq_true_iff.1 halpha with hupper | hlower
  · exact hno (by decide) (of_decide_eq_true hupper).1
  · exact hno (by decide) (of_decide_eq_true (Bool.and_eq_true_iff.1 hlower).1)

theorem continues_of_isAlphanum (h : c.isAlphanum = true) : continues o c = true := by
  simp [continues, h]

/-- A letter, or a separator, starts a word. -/
def starts (o : LexicalOptions) (c : Char) : Bool := c.isAlpha || o.allowsSeparator c

theorem isSpaced_cons_iff (hc : starts o c = true) (hcs : ∀ d ∈ cs, continues o d = true) :
    isSpaced o.allowsSeparator false (c :: cs) = true ↔
      c.isAlpha = true ∧ IsSeparated o (c :: cs) := by
  have hcontinues : continues o c = true := by
    rw [starts, Bool.or_eq_true] at hc
    rw [continues, Bool.or_eq_true, Char.isAlphanum, Bool.or_eq_true]
    exact hc.imp_left .inl
  have hspaced := @isSpaced_iff o (c :: cs) [] (List.forall_mem_cons.2 ⟨hcontinues, hcs⟩)
  have hletter : c.isAlphanum = true ↔ c.isAlpha = true := by
    refine ⟨fun h => ?_, isAlphanum_of_isAlpha⟩
    simpa [starts, allowsSeparator_eq_false h] using hc
  simpa [IsSeparatedBehind, IsSeparated, hletter] using hspaced

/-- A text of letters and digits is a word, a reserved one if it is spelled like one. Whether all of
it are capitals makes no difference. -/
theorem classify_of_isAlphanum (hc : c.isAlpha = true) (hcs : ∀ d ∈ cs, d.isAlphanum = true) :
    classify o (c :: cs) = (Token.reservedWord? (String.ofList (c :: cs))).getD .stdIdent := by
  have hletters : ∀ d ∈ c :: cs, d.isAlphanum = true :=
    List.forall_mem_cons.2 ⟨isAlphanum_of_isAlpha hc, hcs⟩
  have hnone : ∀ d ∈ c :: cs, o.allowsSeparator d = false := fun d hd =>
    allowsSeparator_eq_false (hletters d hd)
  have hseparated : IsSeparated o (c :: cs) := fun front d back hsplit hd => by
    rw [hnone d (by simp [hsplit])] at hd
    cases hd
  have hspaced := (isSpaced_cons_iff (by simp [starts, hc]) fun d hd =>
    continues_of_isAlphanum (hcs d hd)).2 ⟨hc, hseparated⟩
  rw [classify, hspaced, Bool.not_true, if_neg Bool.false_ne_true]
  split
  · rfl
  · next hupper =>
    have hword : Token.reservedWord? (String.ofList (c :: cs)) = none :=
      Token.reservedWord?_eq_none_iff.2 fun t ht hname =>
        hupper (hname ▸ (Token.all_isUpper_name ht).2)
    have hany : (c :: cs).any o.allowsSeparator = false :=
      List.any_eq_false.2 fun d hd => by simp [hnone d hd]
    rw [hword, hany]
    rfl

/-- A word with separators that are well placed. -/
theorem classify_of_isSeparated (hc : c.isAlpha = true) (hcs : ∀ d ∈ cs, continues o d = true)
    (hsome : ∃ d ∈ cs, o.allowsSeparator d = true) (hseparated : IsSeparated o (c :: cs)) :
    classify o (c :: cs) = .foreignIdent := by
  obtain ⟨d, hd, hsep⟩ := hsome
  have hmem : d ∈ c :: cs := List.mem_cons_of_mem c hd
  have hupper : ¬(c :: cs).all Char.isUpper = true := fun hupper => by
    have hletter := isAlphanum_of_isAlpha (isAlpha_of_isUpper (List.all_eq_true.1 hupper d hmem))
    rw [allowsSeparator_eq_false hletter] at hsep
    cases hsep
  have hspaced := (isSpaced_cons_iff (by simp [starts, hc]) hcs).2 ⟨hc, hseparated⟩
  rw [classify, hspaced, Bool.not_true, if_neg Bool.false_ne_true, if_neg hupper,
    if_pos (List.any_eq_true.2 ⟨d, hmem, hsep⟩)]

theorem spelled_of_classify (hc : starts o c = true) (hcs : ∀ d ∈ cs, continues o d = true)
    (h : classify o (c :: cs) ≠ .malformedIdent) : Spelled o (classify o (c :: cs)) (c :: cs) := by
  have hspaced : isSpaced o.allowsSeparator false (c :: cs) = true :=
    Bool.not_eq_false _ ▸ fun hspaced => h (by simp [classify, hspaced])
  obtain ⟨halpha, hseparated⟩ := (isSpaced_cons_iff hc hcs).1 hspaced
  by_cases hsome : ∃ d ∈ cs, o.allowsSeparator d = true
  · rw [classify_of_isSeparated halpha hcs hsome hseparated]
    exact .foreign halpha (fun d hd => Bool.or_eq_true_iff.1 (hcs d hd)) hsome hseparated
  · have hletters : ∀ d ∈ cs, d.isAlphanum = true := fun d hd =>
      (Bool.or_eq_true_iff.1 (hcs d hd)).resolve_right fun hsep => hsome ⟨d, hd, hsep⟩
    rw [classify_of_isAlphanum halpha hletters]
    cases hword : Token.reservedWord? (String.ofList (c :: cs)) with
    | none => exact .standard halpha hletters (Token.reservedWord?_eq_none_iff.1 hword)
    | some t =>
      obtain ⟨ht, hname⟩ := Token.reservedWord?_eq_some_iff.1 hword
      rw [← @String.toList_ofList (c :: cs), ← hname]
      exact .reserved ht

theorem classify_of_spelled (h : Spelled o t (c :: cs)) :
    c.isAlpha = true ∧ (∀ d ∈ cs, continues o d = true) ∧ classify o (c :: cs) = t ∧
      t ≠ .malformedIdent := by
  generalize htext : c :: cs = text at h
  cases h with
  | reserved ht =>
    have hupper := (Token.all_isUpper_name ht).2
    rw [← htext] at hupper ⊢
    have halpha : ∀ d ∈ c :: cs, d.isAlpha = true := fun d hd =>
      isAlpha_of_isUpper (List.all_eq_true.1 hupper d hd)
    obtain ⟨hc, hcs⟩ := List.forall_mem_cons.1 halpha
    have hletters : ∀ d ∈ cs, d.isAlphanum = true := fun d hd => isAlphanum_of_isAlpha (hcs d hd)
    refine ⟨hc, fun d hd => continues_of_isAlphanum (hletters d hd), ?_, fun hmalformed => ?_⟩
    · rw [classify_of_isAlphanum hc hletters, htext, String.ofList_toList,
        Token.reservedWord?_eq_some_iff.2 ⟨ht, rfl⟩, Option.getD_some]
    · rw [hmalformed] at ht
      cases ht
  | standard hc hletters hword =>
    obtain ⟨rfl, rfl⟩ := List.cons.inj htext
    refine ⟨hc, fun d hd => continues_of_isAlphanum (hletters d hd), ?_, by decide⟩
    rw [classify_of_isAlphanum hc hletters, Token.reservedWord?_eq_none_iff.2 hword,
      Option.getD_none]
  | foreign hc hcs hsome hseparated =>
    obtain ⟨rfl, rfl⟩ := List.cons.inj htext
    have hcontinues : ∀ d ∈ cs, continues o d = true := fun d hd => Bool.or_eq_true_iff.2 (hcs d hd)
    exact ⟨hc, hcontinues, classify_of_isSeparated hc hcontinues hsome hseparated, by decide⟩

/-- A text that starts like a word is one word without a fault exactly if it is spelled like
one. -/
theorem read_iff_spelled (hc : starts o c = true) :
    (read o p c rest).token = t ∧ (read o p c rest).length = rest.length + 1 ∧
      (read o p c rest).reports = [] ↔ Spelled o t (c :: rest) := by
  unfold read
  dsimp only
  constructor
  · rintro ⟨rfl, hlength, hreports⟩
    have hrest : rest.takeWhile (continues o) = rest :=
      (List.takeWhile_prefix _).eq_of_length (Nat.succ_inj.1 hlength)
    rw [hrest] at hreports ⊢
    refine spelled_of_classify hc (List.takeWhile_eq_self_iff.1 hrest) fun hmalformed => ?_
    simp [hmalformed] at hreports
  · intro h
    obtain ⟨-, hcs, rfl, hne⟩ := classify_of_spelled h
    rw [List.takeWhile_eq_self_iff.2 hcs, if_neg hne]
    exact ⟨rfl, rfl, rfl⟩

theorem Spelled.ne_nil {text : List Char} (h : Spelled o t text) : text ≠ [] := by
  cases h with
  | reserved ht => exact (Token.all_isUpper_name ht).1
  | standard | foreign => exact List.cons_ne_nil _ _

end Word

/-! ## Numbers -/

theorem Number.Spelled.any_head? {t : Token} {text : List Char} (h : Spelled t text) :
    text.head?.any Char.isDigit = true := by
  have hdecimal {cs : List Char} (h : Decimal cs) : ∃ d ds, cs = d :: ds ∧ d.isDigit = true := by
    cases h with
    | zero => exact ⟨_, _, rfl, rfl⟩
    | digits _ h => exact ⟨_, _, rfl, h.startsWithDigit⟩
  cases h with
  | decimal h =>
    obtain ⟨d, ds, rfl, hd⟩ := hdecimal h
    exact hd
  | binary | hexadecimal | charCode => rfl
  | real h =>
    obtain ⟨d, ds, rfl, hd⟩ := hdecimal h
    exact hd

/-! ## Symbols -/

/-- A reserved word, an identifier or a number. -/
def Token.isWordOrNumber (t : Token) : Bool :=
  t.isReservedWord || t.isIdentifier || t.isNumberLiteral

theorem Token.isComment_of_isWordOrNumber {t : Token} (h : t.isWordOrNumber = true) :
    t.isComment = false := by
  revert t
  decide

/-- The token with this text is all that there is in the text, and nothing is reported. -/
structure IsAlone (o : LexicalOptions) (t : Token) (text : String) : Prop where
  readings_eq : (tokenize o text).readings (tokenize o text).symbols =
    [(t, text), (.endOfFile, "")]
  reports_eq : (tokenize o text).reports = []

namespace Chunk

variable {o : LexicalOptions} {p : Position} {c : Char} {rest : List Char} {t : Token}

theorem read?_of_starts (h : Word.starts o c = true) :
    read? o p c rest = some (Word.read o p c rest) := if_pos h

theorem read?_of_isDigit (h : c.isDigit = true) :
    read? o p c rest = some (Number.read p c rest) := by
  have hstarts : ¬(c.isAlpha || o.allowsSeparator c) = true := by
    rw [Word.isAlpha_eq_false h, Word.allowsSeparator_eq_false (by simp [Char.isAlphanum, h])]
    exact Bool.false_ne_true
  unfold read?
  rw [if_neg hstarts, if_pos h]

theorem isBlank_of_isAlphanum (h : c.isAlphanum = true) : isBlank c = false := by
  refine Bool.eq_false_iff.2 fun hblank => ?_
  simp only [isBlank, Bool.or_eq_true, decide_eq_true_eq] at hblank
  rcases hblank with (((rfl | rfl) | rfl) | rfl) | rfl <;> cases h

/-- Only what starts like a word or a number is one. -/
theorem isWordOrNumber_eq_false {r : Reading} (h : read? o p c rest = some r)
    (hc : Word.starts o c = false) (hdigit : c.isDigit = false) :
    r.token.isWordOrNumber = false := by
  unfold Word.starts at hc
  unfold read? at h
  rw [hc, hdigit, if_neg Bool.false_ne_true, if_neg Bool.false_ne_true] at h
  have hquoted (quote : Char) : (Quoted.read p quote rest).token.isWordOrNumber = false := by
    obtain h | h := Quoted.token_read p quote rest <;> rw [h] <;> rfl
  split at h
  · cases h
    exact hquoted _
  · cases h
    exact hquoted _
  · cases h
    rfl
  · cases h
    unfold Comment.readBlock
    dsimp only
    split <;> rfl
  · cases h
    unfold Comment.readPragma
    dsimp only
    split <;> rfl
  · have hspecial : ∀ t : Token, t.isSpecialSymbol = true → t.isWordOrNumber = false := by decide
    exact hspecial _ (Special.isSpecialSymbol_of_read? h).1

/-- A symbol that takes all that there is. -/
theorem ofReading_of_length {r : Reading} (h : r.length = rest.length + 1) :
    (ofReading p c rest r).text = c :: rest ∧ (ofReading p c rest r).dropped = [] ∧
      (ofReading p c rest r).reports = r.reports := by
  have htake : (c :: rest).take r.length = c :: rest := List.take_of_length_le (by simp [h])
  have hdrop : (c :: rest).drop r.length = [] := List.drop_eq_nil_of_le (by simp [h])
  simp [ofReading, htake, hdrop]

/-- A piece that has all of the source is the first one. -/
theorem exists_first_of_text_eq {text : String} {k : Chunk} (hk : k ∈ piecesOf o text)
    (h : k.text = text.toList) :
    ∃ c rest, text.toList = c :: rest ∧ k = first o .start c rest := by
  obtain ⟨front, c, rest, htext, rfl⟩ := exists_first_of_mem_piecesOf hk
  have hle := (within_first o (Position.start.after front) c rest).text_le.length_le
  rw [h, htext, List.length_append] at hle
  obtain rfl : front = [] := List.eq_nil_of_length_eq_zero (by omega)
  exact ⟨c, rest, htext, rfl⟩

/-- A text is alone as a token if it is read as it, to its end and without a fault. -/
theorem isAlone_iff {text : String} (ht : t.isComment = false) :
    IsAlone o t text ↔
      ∃ c rest r, text.toList = c :: rest ∧ isBlank c = false ∧ read? o .start c rest = some r ∧
        r.token = t ∧ r.length = rest.length + 1 ∧ r.reports = [] := by
  constructor
  · rintro ⟨hreadings, hreports⟩
    rw [readings_symbols] at hreadings
    have hsymbols : unplaced (symbolsOf o text) = [(t, text)] := List.append_cancel_right hreadings
    obtain ⟨s, hs, hst⟩ := List.map_eq_singleton_iff.1 hsymbols
    obtain ⟨k, hk, hks⟩ := List.mem_filterMap.1 (hs ▸ List.mem_singleton_self s)
    obtain ⟨token, hkept, rfl⟩ := Option.map_eq_some_iff.1 hks
    obtain ⟨rfl, hown⟩ := Prod.mk.inj hst
    have hall : k.text = text.toList := by rw [← hown, String.toList_ofList]
    obtain ⟨c, rest, htext, rfl⟩ := exists_first_of_text_eq hk hall
    obtain ⟨hc, r, hr, hfirst⟩ := exists_reading_of_token? (Option.filter_eq_some_iff.1 hkept).1
    rw [reports_tokenize, List.flatMap_eq_nil_iff] at hreports
    have hnone := hreports _ hk
    have hlength : r.length = rest.length + 1 := by
      have hle := (within_read? hr).length_le
      rw [hfirst, htext, show (ofReading .start c rest r).text = (c :: rest).take r.length from rfl,
        List.take_eq_self_iff] at hall
      exact Nat.le_antisymm hle hall
    rw [hfirst] at hkept hnone
    rw [(ofReading_of_length hlength).2.2] at hnone
    have htoken : r.token = token := Option.some.inj (Option.filter_eq_some_iff.1 hkept).1
    exact ⟨c, rest, r, htext, hc, hr, htoken, hlength, hnone⟩
  · rintro ⟨c, rest, r, htext, hc, hr, rfl, hlength, hreports⟩
    have hfirst := first_of_read? hc hr
    obtain ⟨hown, hdropped, hfaults⟩ := ofReading_of_length (p := .start) (c := c) hlength
    have hextent : (first o .start c rest).extent = c :: rest := by
      rw [hfirst, extent, hown, hdropped, List.append_nil]
    have hcut : piecesOf o text = [first o .start c rest] := by
      rw [piecesOf, htext, cut_cons, hextent, List.drop_length, cut_nil]
    have hkept : (ofReading .start c rest r).symbol? o =
        some ⟨r.token, String.ofList (c :: rest), .start⟩ := by
      rw [symbol?, Scanned.keptToken?, hown]
      simp [ofReading, ht]
    refine ⟨?_, ?_⟩
    · rw [readings_symbols, symbolsOf, hcut, hfirst, List.filterMap_cons, hkept, ← htext,
        String.ofList_toList]
      rfl
    · rw [reports_tokenize, hcut, hfirst, List.flatMap_singleton, hfaults, hreports]

end Chunk

theorem Word.Spelled.isWordOrNumber {o : LexicalOptions} {t : Token} {text : List Char}
    (h : Spelled o t text) : t.isWordOrNumber = true := by
  cases h with
  | reserved ht => simp [Token.isWordOrNumber, ht]
  | standard | foreign => rfl

theorem Number.Spelled.isWordOrNumber {t : Token} {text : List Char} (h : Spelled t text) :
    t.isWordOrNumber = true := by
  cases h <;> rfl

/-- Words and numbers are recognized by their grammars: a text is alone as a reserved word, as an
identifier or as a number exactly if the grammar of words or that of numbers has it as the same
token. -/
theorem alone_iff_spelled (o : LexicalOptions) (t : Token) (text : String) :
    t.isWordOrNumber = true ∧ IsAlone o t text ↔
      Word.Spelled o t text.toList ∨ Number.Spelled t text.toList := by
  constructor
  · rintro ⟨ht, halone⟩
    obtain ⟨c, rest, r, htext, -, hr, rfl, hread⟩ :=
      (Chunk.isAlone_iff (Token.isComment_of_isWordOrNumber ht)).1 halone
    rw [htext]
    by_cases hstarts : Word.starts o c = true
    · obtain rfl := Option.some.inj ((Chunk.read?_of_starts hstarts).symm.trans hr)
      exact .inl ((Word.read_iff_spelled hstarts).1 ⟨rfl, hread⟩)
    by_cases hdigit : c.isDigit = true
    · obtain rfl := Option.some.inj ((Chunk.read?_of_isDigit hdigit).symm.trans hr)
      exact .inr ((Number.read_iff_spelled hdigit rest).1 ⟨rfl, hread⟩)
    · rw [Bool.not_eq_true] at hstarts hdigit
      rw [Chunk.isWordOrNumber_eq_false hr hstarts hdigit] at ht
      cases ht
  · intro h
    have ht : t.isWordOrNumber = true := h.elim (·.isWordOrNumber) (·.isWordOrNumber)
    refine ⟨ht, (Chunk.isAlone_iff (Token.isComment_of_isWordOrNumber ht)).2 ?_⟩
    rcases h with h | h
    · obtain ⟨c, rest, htext⟩ := List.exists_cons_of_ne_nil h.ne_nil
      rw [htext] at h
      have hc : c.isAlpha = true := (Word.classify_of_spelled h).1
      have hstarts : Word.starts o c = true := by simp [Word.starts, hc]
      exact ⟨c, rest, _, htext, Chunk.isBlank_of_isAlphanum (Word.isAlphanum_of_isAlpha hc),
        Chunk.read?_of_starts hstarts, (Word.read_iff_spelled hstarts).2 h⟩
    · have hdigit := h.any_head?
      cases htext : text.toList with
      | nil => rw [htext] at hdigit; cases hdigit
      | cons c rest =>
        rw [htext] at h hdigit
        have hletter : c.isAlphanum = true := Bool.or_eq_true_iff.2 (.inr hdigit)
        exact ⟨c, rest, _, rfl, Chunk.isBlank_of_isAlphanum hletter,
          Chunk.read?_of_isDigit hdigit, (Number.read_iff_spelled hdigit rest).2 h⟩

end Modula
