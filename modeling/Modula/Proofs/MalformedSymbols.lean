import Modula.Proofs.LiteralFaults
import Modula.Proofs.PlainNesting

/-!
# Malformed symbols are reported once

A symbol whose text breaks the rules of its class is malformed, and each class of malformed symbols
has a code of its own. The report under that code and the token of the symbol are made in different
places, for some classes behind other reports of the same symbol. It is shown class by class that
they come together: a malformed symbol is reported once, where it starts, and no other symbol is.
-/

namespace Modula

/-- The code that a malformed symbol is reported under. -/
def Token.malformation? : Token → Option Code
  | malformedIdent => some .malformedIdentifier
  | malformedNumber => some .malformedNumber
  | malformedString => some .unterminatedQuoted
  | malformedComment => some .unterminatedComment
  | malformedPragma => some .unterminatedPragma
  | _ => none

/-- The report that is due for a symbol, if it is malformed. It stands where the symbol starts, and
that of an identifier or a number has the text of the symbol. -/
def Symbol.malformation? (s : Symbol) : Option Diagnostic :=
  s.token.malformation?.map fun code =>
    { Diagnostic.ofPosition code s.position with
      lexeme := if s.token = .malformedIdent ∨ s.token = .malformedNumber then some s.text
        else .none }

/-- A code that malformed symbols are reported under. -/
def Code.isMalformation (c : Code) : Bool :=
  c = .malformedIdentifier || c = .malformedNumber || c = .unterminatedQuoted ||
    c = .unterminatedComment || c = .unterminatedPragma

/-- The reports of malformed symbols. -/
def malformations (ds : List Diagnostic) : List Diagnostic := ds.filter (·.code.isMalformation)

theorem malformations_append (ds es : List Diagnostic) :
    malformations (ds ++ es) = malformations ds ++ malformations es :=
  List.filter_append ds es

theorem malformations_eq_nil {ds : List Diagnostic}
    (h : ∀ d ∈ ds, d.code.isMalformation = false) : malformations ds = [] :=
  List.filter_eq_nil_iff.2 fun d hd => by rw [h d hd]; exact Bool.false_ne_true

theorem Symbol.malformation?_eq_none {s : Symbol} (h : s.token.malformation? = .none) :
    s.malformation? = .none := by
  rw [malformation?, h, Option.map_none]

/-- Of the reports of a symbol at the start of a text, one is that of a malformed symbol if it is
malformed, and none is if it is not. -/
def Reading.Confesses (p : Position) (cs : List Char) (r : Reading) : Prop :=
  malformations r.reports =
    (Symbol.malformation? ⟨r.token, String.ofList (cs.take r.length), p⟩).toList

/-- A symbol that is not malformed and has no reports. -/
theorem Reading.Confesses.of_reports_eq_nil {p : Position} {cs : List Char} {r : Reading}
    (ht : r.token.malformation? = none) (hr : r.reports = []) : r.Confesses p cs := by
  rw [Confesses, hr, Symbol.malformation?_eq_none ht]
  rfl

/-! ## Words -/

namespace Word

theorem malformation?_classify (o : LexicalOptions) (word : List Char) :
    classify o word = .malformedIdent ∨ (classify o word).malformation? = none := by
  have hreserved : ∀ t : Token, t.isReservedWord = true → t.malformation? = none := by decide
  unfold classify
  split
  · exact .inl rfl
  · refine .inr ?_
    split
    · cases h : Token.reservedWord? (String.ofList word) with
      | none => rfl
      | some t => exact hreserved t (Token.reservedWord?_eq_some_iff.1 h).1
    · split <;> rfl

theorem confesses_read (o : LexicalOptions) (p : Position) (c : Char) (rest : List Char) :
    (Word.read o p c rest).Confesses p (c :: rest) := by
  have hword : (c :: rest).take (c :: rest.takeWhile (continues o)).length =
      c :: rest.takeWhile (continues o) :=
    (List.prefix_iff_eq_take.1 (List.cons_prefix_cons.2 ⟨rfl, List.takeWhile_prefix _⟩)).symm
  unfold Reading.Confesses Word.read
  dsimp only
  rw [hword]
  rcases malformation?_classify o (c :: rest.takeWhile (continues o)) with ht | ht
  · rw [ht, if_pos rfl]
    rfl
  · have hne : classify o (c :: rest.takeWhile (continues o)) ≠ .malformedIdent := by
      intro heq
      rw [heq] at ht
      cases ht
    rw [if_neg hne, Symbol.malformation?_eq_none ht]
    rfl

end Word

/-! ## Numbers -/

/-- None of the reports of a rule is that of a malformed symbol. -/
def Rule.Minor (f : Rule) : Prop := ∀ p cs, malformations (f p cs).reports = []

namespace Rule.Minor

theorem skip (n : Nat) : (Rule.skip n).Minor := fun _ _ => rfl

theorem andThen {f g : Rule} (hf : f.Minor) (hg : g.Minor) : (f.andThen g).Minor := by
  intro p cs
  rw [Rule.andThen, malformations_append, hf, hg]
  rfl

end Rule.Minor

namespace Number

theorem minor_digits (b : Base) : (digits b).Minor := by
  intro p cs
  unfold digits
  rcases digitExtent b 0 cs with ⟨n, lacksDigit⟩
  cases lacksDigit <;> rfl

theorem minor_someDigits {missing : Code} (h : missing.isMalformation = false) :
    (someDigits missing).Minor := by
  intro p cs
  unfold someDigits
  split
  · exact minor_digits .decimal p cs
  · exact malformations_eq_nil (List.forall_mem_singleton.2 h)

theorem minor_sign : sign.Minor := by
  intro p cs
  unfold sign
  split <;> rfl

theorem minor_exponent : exponent.Minor := by
  have hsome : ((Rule.skip 1).andThen sign |>.andThen (someDigits .exponentWithoutDigit)).Minor :=
    ((Rule.Minor.skip 1).andThen minor_sign).andThen (minor_someDigits rfl)
  intro p cs
  unfold exponent
  split
  · exact hsome p _
  · exact hsome p _
  · rfl

theorem minor_fraction : fraction.Minor :=
  ((Rule.Minor.skip 1).andThen (minor_someDigits rfl)).andThen minor_exponent

theorem IsKind.minor {kind : Token × Rule} (h : IsKind kind) : kind.2.Minor := by
  cases h with
  | zero => exact .skip 0
  | malformed n => exact .skip n
  | based b => exact (Rule.Minor.skip 1).andThen (minor_digits b)
  | fraction => exact minor_fraction
  | digits => exact minor_digits _
  | real => exact (minor_digits _).andThen minor_fraction

/-- A number may be malformed as a number, and in no other way. -/
theorem IsKind.malformation? {kind : Token × Rule} (h : IsKind kind) :
    kind.1 = .malformedNumber ∨ kind.1.malformation? = none := by
  cases h with
  | malformed => exact .inl rfl
  | based b ht => obtain rfl | rfl := ht <;> exact .inr rfl
  | zero | fraction | digits | real => exact .inr rfl

theorem confesses_read (p : Position) (c : Char) (rest : List Char) :
    (Number.read p c rest).Confesses p (c :: rest) := by
  have hminor := (isKind_kindOf c rest).minor (p.next c) rest
  have htoken := (isKind_kindOf c rest).malformation?
  unfold kindOf at hminor htoken
  unfold Reading.Confesses Number.read
  generalize (if c = '0' then afterZero rest else afterDigit rest) = kind at hminor htoken ⊢
  obtain ⟨token, rule⟩ := kind
  dsimp only at hminor htoken ⊢
  split
  · rw [malformations_append, hminor]
    rfl
  · next h =>
    rw [hminor, Symbol.malformation?_eq_none (htoken.resolve_left fun ht => h (.inl ht))]
    rfl

end Number

/-! ## Literals, comments, pragmas and special symbols -/

theorem Quoted.malformations_faults (quote : Char) (p : Position) (cs : List Char) :
    malformations (faults quote p cs) = [] := by
  induction cs generalizing p with
  | nil => rfl
  | cons c cs ih =>
    rw [faults]
    split
    · rfl
    · rw [malformations_append, ih]
      cases hfault : fault? p c cs with
      | none => rfl
      | some d => cases fault?_eq_some_iff.1 hfault <;> rfl

theorem Quoted.confesses_read {quote : Char} (hq : IsQuote quote) (p : Position)
    (rest : List Char) : (Quoted.read p quote rest).Confesses p (quote :: rest) := by
  have hminor := malformations_faults quote (p.next quote) rest
  unfold Reading.Confesses
  by_cases hclosed : (rest.takeWhile (· != quote)).length < rest.length
  · rw [read_eq_closed hq p hclosed]
    exact hminor
  · rw [read_eq_unclosed hq p hclosed]
    dsimp only
    rw [malformations_append, hminor]
    rfl

theorem Comment.confesses_readBlock (p : Position) (body : List Char) :
    (readBlock p body).Confesses p ('(' :: '*' :: body) := by
  have hminor : malformations (deepReport ((p.next '(').next '*') body
      (extent 1 0 0 none body).tooDeep) = [] := by
    cases (extent 1 0 0 none body).tooDeep <;> rfl
  rw [Reading.Confesses, reports_readBlock, token_readBlock, malformations_append, hminor]
  cases (extent 1 0 0 none body).closed <;> rfl

theorem Comment.confesses_readPragma (p : Position) (body : List Char) :
    (readPragma p body).Confesses p ('<' :: '*' :: body) := by
  unfold Reading.Confesses readPragma
  rcases pragmaExtent 0 body with ⟨n, closed⟩
  cases closed <;> rfl

theorem Special.confesses_read? {p : Position} {c : Char} {rest : List Char} {r : Reading}
    (h : read? c rest = some r) : r.Confesses p (c :: rest) := by
  have hspecial : ∀ t : Token, t.isSpecialSymbol = true → t.malformation? = none := by decide
  obtain ⟨ht, hr⟩ := isSpecialSymbol_of_read? h
  exact .of_reports_eq_nil (hspecial _ ht) hr

/-! ## All pieces -/

namespace Chunk

variable {o : LexicalOptions} {p : Position} {c : Char} {rest : List Char}

theorem confesses_read? {r : Reading} (h : read? o p c rest = some r) :
    r.Confesses p (c :: rest) := by
  unfold read? at h
  split at h
  · cases h; exact Word.confesses_read o p c rest
  · split at h
    · cases h; exact Number.confesses_read p c rest
    · split at h
      · cases h; exact Quoted.confesses_read (.inl rfl) p _
      · cases h; exact Quoted.confesses_read (.inr rfl) p _
      · cases h; exact .of_reports_eq_nil rfl rfl
      · cases h; exact Comment.confesses_readBlock p _
      · cases h; exact Comment.confesses_readPragma p _
      · exact Special.confesses_read? h

/-- A piece has the report of a malformed symbol if it is one, and otherwise none. -/
theorem malformations_first (o : LexicalOptions) (p : Position) (c : Char) (rest : List Char) :
    malformations (first o p c rest).reports =
      ((first o p c rest).asSymbol?.bind Symbol.malformation?).toList := by
  have harises := arises_first o p c rest
  generalize first o p c rest = k at harises ⊢
  cases harises with
  | blanks hc => rfl
  | disabled hc hp hrest =>
    dsimp only [idle]
    unfold Comment.disabled
    split <;> rfl
  | @symbol r hc hr =>
    have hown : malformations (ofReading p c rest r).reports = malformations r.reports := by
      unfold ofReading
      dsimp only
      split
      · rw [malformations_append]
        exact List.append_nil _
      · rfl
    rw [hown, confesses_read? hr]
    rfl
  | stray hc hr => rfl

end Chunk

/-! ## All calls -/

namespace Scanner

/-- A call reports a malformed symbol if it gives one out, and otherwise none. -/
theorem malformations_next (s : Scanner) :
    malformations s.next.1.reports = s.next.1.symbol.malformation?.toList := by
  obtain ⟨o, p, text⟩ := s
  induction p, text using Chunk.cut_induction o with
  | nil p =>
    rw [next_of_rest_eq_nil rfl]
    rfl
  | cons p c rest behind htext ih =>
    have hpiece := Chunk.malformations_first o p c rest
    have hnext := next_cons o p c rest
    rw [skip_of_extent htext] at hnext
    cases hk : (Chunk.first o p c rest).asSymbol? with
    | none =>
      rw [hk] at hnext hpiece
      rw [hnext, malformations_append, hpiece]
      exact ih
    | some x =>
      rw [hk] at hnext hpiece
      rw [hnext]
      exact hpiece

theorem malformations_call (s : Scanner) (n : Nat) :
    malformations (s.call n).reports = (s.call n).symbol.malformation?.toList := by
  induction n generalizing s with
  | zero => exact malformations_next s
  | succ n ih => exact ih s.next.2

end Scanner

/-- Reports that are due are made, each at its place in the row. -/
theorem malformations_flatMap {α : Type} {reports : α → List Diagnostic}
    {due : α → Option Diagnostic} {xs : List α}
    (h : ∀ x ∈ xs, malformations (reports x) = (due x).toList) :
    malformations (xs.flatMap reports) = xs.filterMap due := by
  induction xs with
  | nil => rfl
  | cons x xs ih =>
    obtain ⟨hx, hxs⟩ := List.forall_mem_cons.1 h
    rw [List.flatMap_cons, malformations_append, hx, ih hxs, List.filterMap_cons]
    cases due x <;> rfl

open Scanner in
/-- A malformed symbol is reported once, and nothing else is reported as malformed. Of the reports
that a call for the next symbol gives out, one is that of a malformed symbol if the symbol is
malformed, and none is if it is not. So the reports of malformed symbols that any number of calls
give out are those due for the symbols, one by one and in their order; and they are all that the
source has. -/
theorem malformed_reported_once (o : LexicalOptions) (source : String) :
    (∀ i, malformations ((ofText o source).call i).reports =
      ((ofText o source).call i).symbol.malformation?.toList) ∧
    (∀ n, malformations (((ofText o source).calls n).flatMap Scanned.reports) =
      (((ofText o source).calls n).map Scanned.symbol).filterMap Symbol.malformation?) ∧
    malformations (tokenize o source).reports =
      (allSymbolsOf o source).filterMap Symbol.malformation? := by
  refine ⟨malformations_call _, fun n => ?_, ?_⟩
  · rw [List.filterMap_map]
    refine malformations_flatMap fun x hx => ?_
    obtain ⟨i, -, rfl⟩ := List.mem_map.1 hx
    exact malformations_call _ i
  · rw [reports_tokenize, allSymbolsOf, List.filterMap_filterMap]
    refine malformations_flatMap fun k hk => ?_
    obtain ⟨front, c, rest, -, rfl⟩ := exists_first_of_mem_piecesOf hk
    exact Chunk.malformations_first o _ c rest

end Modula
