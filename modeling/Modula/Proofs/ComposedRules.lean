import Modula.Proofs.Consumption

/-!
# The rules of the grammar are composed

Every rule of the grammar, from identifiers to compilation units, is put together from operations
and consuming repetitions. The rules call the nested constructs through a parameter; what they rely
on there is `Reliable`, and an induction on the number of levels shows that it can be relied on.
-/

namespace Modula

open Modula.Parser

/-- The tokens that a nested construct starts with. -/
def Nested.start : Nested → TokenSet
  | expression => Grammar.expressionStart
  | statement => Grammar.statementStart
  | type => Grammar.typeStart
  | procedure => Grammar.tokens [.kwProcedure]
  | variantFields => Grammar.tokens [.kwCase]

/-- What a rule relies on when it calls a nested construct. -/
class Reliable (n : Nat) (call : Call) : Prop where
  composed : ∀ x, Composed n (call x)
  consumes : ∀ x, Consumes (· ∈ x.start) (call x)

namespace Grammar

variable {n : Nat} {α β : Type}

instance (priority := low) {call : Call} [h : Reliable n call] (x : Nested) :
    Composed n (call x) := h.composed x

/-! ## Names and sequences -/

theorem consumes_ident (s : TokenSet) : Consumes (· ∈ identStart) (ident s) := by
  refine .ifAtAny (.leaf _ ?_) (.of_false fun t h => h.2 h.1)
  rintro t ⟨ht, -⟩ rfl
  exact absurd ht (by decide)

instance (w : Token) (rule : Parser Node) [Composed n rule] : Composed n (optionalAt w rule) := by
  unfold optionalAt
  infer_instance

instance (item : Parser α) [hi : Composed n item] : Composed n (separated .comma item) :=
  .separated (by decide) hi

instance (item : Parser α) [hi : Composed n item] : Composed n (separated .bar item) :=
  .separated (by decide) hi

instance (s : TokenSet) : Composed n (identList s) := by
  unfold identList
  infer_instance

theorem consumes_identList (s : TokenSet) : Consumes (· ∈ identStart) (identList s) := by
  unfold identList
  exact (Consumes.separated (n := 0) inferInstance (consumes_ident _)).bind (n := 0)
    fun _ => inferInstance

instance (s : TokenSet) (parts : List Node) : Composed n (qualidentRound s parts) := by
  unfold qualidentRound
  infer_instance

/-- A round that goes on only behind a token it has just consumed. -/
theorem consuming_ifAt {t : Token} (ht : t ≠ .endOfFile) {yes : α → Unit → Parser (Round α)}
    {no : α → α} (hy : ∀ a u, Composed n (yes a u)) :
    Consuming (fun a => ifAt t (advance >>= yes a) (return .done (no a))) := by
  intro a p b q hp h
  rw [exec_ifAt] at h
  split at h
  · next hpt => exact length_ahead_lt_of_advance ht (hy a) hp hpt h
  · cases h

theorem consuming_qualidentRound (s : TokenSet) : Consuming (qualidentRound s) :=
  consuming_ifAt (n := 0) (by decide) fun _ _ => inferInstance

instance (s : TokenSet) (parts : List Node) : Composed n (loop (qualidentRound s) parts) :=
  .loop _ parts (fun _ => inferInstance) (consuming_qualidentRound s)

instance (s : TokenSet) : Composed n (qualident s) := by
  unfold qualident
  infer_instance

theorem consumes_qualident (s : TokenSet) : Consumes (· ∈ identStart) (qualident s) := by
  unfold qualident
  exact (consumes_ident s).bind (n := 0) fun _ => inferInstance

instance (o : ParseOptions) (semicolon : Symbol) : Composed n (reportErrant o semicolon) :=
  .note_some
    (fun s => { faultAt .errantSemicolon semicolon with
      severity := o.errantSemicolon
      found := s.token })
    fun _ => .errant semicolon o.errantSemicolon

theorem composed_missingItems {c : Code} (h : c = .emptyStatements ∨ c = .emptyFields) :
    Composed n (missingItems c) := by
  have : Composed n (do report (faultBy c (← lookahead))) := .note_some _ fun _ => .missing c h
  exact (inferInstance : Composed n
    ((do report (faultBy c (← lookahead))) >>= fun _ => pure Tree.empty))

/-- What a round of a list reads behind the item. -/
def behindItem (o : ParseOptions) (start closers : TokenSet) (found : List Node) :
    Parser (Round (List Node)) :=
  ifAt .semicolon
    (do
      let semicolon ← next
      ifAtAny closers
        (do reportErrant o semicolon; return .done found)
        (return .more found))
    (ifAtAny start
      (do unexpected (.token .semicolon); return .more found)
      (return .done found))

section

variable {o : ParseOptions} {start closers : TokenSet} {item : Parser Node}

theorem semicolonRound_eq (found : List Node) :
    semicolonRound o start closers item found =
      item >>= fun node =>
        behindItem o start closers (if node.isEmpty then found else node :: found) := rfl

instance (found : List Node) : Composed n (behindItem o start closers found) := by
  unfold behindItem
  infer_instance

instance [Composed n item] (found : List Node) :
    Composed n (semicolonRound o start closers item found) := by
  rw [semicolonRound_eq]
  infer_instance

end

/-- A round goes on behind a semicolon, or behind an item that has consumed a symbol: an item that
has consumed none leaves a symbol in view that no item starts with. -/
theorem consuming_semicolonRound (o : ParseOptions) {start : TokenSet} (closers : TokenSet)
    {item : Parser Node} (hi : Composed n item) (hc : Consumes (· ∈ start) item) :
    Consuming (semicolonRound o start closers item) := by
  intro found p found' q hp h
  obtain ⟨a, r, ha, h⟩ := exec_bind_eq_ok.1 h
  have hr := hi.steps ha
  rw [exec_ifAt] at h
  split at h
  · next ht =>
    have hlt := (hr.closed hp).length_ahead_advance (by rw [ht]; decide)
    refine Nat.lt_of_le_of_lt ?_ (Nat.lt_of_lt_of_le hlt hr.length_ahead_le)
    rw [exec_bind, exec_next, proceed_ok, exec_ifAtAny] at h
    split at h
    · cases h
    · cases h; exact Nat.le_refl _
  · rw [exec_ifAtAny] at h
    split at h
    · next ht =>
      rw [exec_bind, exec_unexpected, proceed_ok, exec_pure] at h
      cases h
      by_cases hlt : r.ahead.length < p.ahead.length
      · exact hlt
      · rw [hr.lookahead_eq hp hlt] at ht
        exact hc p a r hp ht ha
    · cases h

theorem composed_semicolonList (o : ParseOptions) {start : TokenSet} (closers : TokenSet)
    {item : Parser Node} (hi : Composed n item) (hc : Consumes (· ∈ start) item) :
    Composed n (semicolonList o start closers item) := by
  unfold semicolonList
  have := Composed.loop (n := n) (semicolonRound o start closers item) [] (fun _ => inferInstance)
    (consuming_semicolonRound o closers hi hc)
  infer_instance

/-! ## Expressions -/

section Expressions

variable {call : Call} [Reliable n call]

instance : Composed n (expressionList call) := by
  unfold expressionList
  infer_instance

instance : Composed n (valueComponent call) := by
  unfold valueComponent
  infer_instance

instance : Composed n (caseLabelList call) := by
  unfold caseLabelList
  infer_instance

instance : Composed n (structuredValue call) := by
  unfold structuredValue
  infer_instance

instance : Composed n (actualParameters call) := by
  unfold actualParameters
  infer_instance

instance (designator : Node) : Composed n (selectorRound call designator) := by
  unfold selectorRound
  refine .bind token _ inferInstance fun t => ?_
  split <;> infer_instance

theorem consuming_selectorRound (n : Nat) {call : Call} [Reliable n call] :
    Consuming (selectorRound call) := by
  intro d p d' q hp h
  rw [selectorRound, exec_bind, exec_token, proceed_ok] at h
  split at h
  · next ht =>
    exact length_ahead_lt_of_advance (n := n) (by decide) (fun _ => inferInstance) hp ht h
  · next ht =>
    exact length_ahead_lt_of_advance (n := n) (by decide) (fun _ => inferInstance) hp ht h
  · next ht =>
    exact length_ahead_lt_of_advance (n := n) (by decide) (fun _ => inferInstance) hp ht h
  · cases h

instance (designator : Node) : Composed n (loop (selectorRound call) designator) :=
  .loop _ designator (fun _ => inferInstance) (consuming_selectorRound n)

instance : Composed n (designator call) := by
  unfold designator
  infer_instance

theorem consumes_designator (n : Nat) {call : Call} [Reliable n call] :
    Consumes (· ∈ identStart) (designator call) := by
  unfold designator
  exact (consumes_ident _).bind (n := n) fun _ => inferInstance

instance : Composed n (designatorOrCall call) := by
  unfold designatorOrCall
  infer_instance

instance : Composed n (parenthesized call) := by
  unfold parenthesized
  infer_instance

instance : Composed n (simpleFactor call) := by
  unfold simpleFactor
  refine .bind token _ inferInstance fun t => ?_
  split <;> infer_instance

instance : Composed n (factor call) := by
  unfold factor
  infer_instance

instance : Composed n (simpleTerm call) := by
  unfold simpleTerm
  infer_instance

instance (kind? : Token → Option Kind) (operand : Parser Node) [Composed n operand] (left : Node) :
    Composed n (operatorRound kind? operand left) := by
  unfold operatorRound
  refine .bind token _ inferInstance fun t => ?_
  split <;> infer_instance

/-- A round goes on only behind an operator, which it has consumed. -/
theorem consuming_operatorRound {kind? : Token → Option Kind} (hk : kind? .endOfFile = none)
    {operand : Parser Node} (ho : Composed n operand) :
    Consuming (operatorRound kind? operand) := by
  intro left p left' q hp h
  rw [operatorRound, exec_bind, exec_token, proceed_ok] at h
  split at h
  · cases h
  · next kind ht =>
    refine length_ahead_lt_of_advance (n := n) ?_ (fun _ => inferInstance) hp rfl h
    intro hpt
    rw [hpt, hk] at ht
    cases ht

theorem composed_operators (kind? : Token → Option Kind) (hk : kind? .endOfFile = none)
    {operand : Parser Node} (ho : Composed n operand) (left : Node) :
    Composed n (loop (operatorRound kind? operand) left) :=
  .loop _ left (fun _ => inferInstance) (consuming_operatorRound hk ho)

instance (left : Node) :
    Composed n (loop (operatorRound multiplicativeKind? (simpleTerm call)) left) :=
  composed_operators _ rfl inferInstance left

instance : Composed n (term call) := by
  unfold term
  infer_instance

instance : Composed n (signedTerm call) := by
  unfold signedTerm
  refine .bind token _ inferInstance fun t => ?_
  split <;> infer_instance

instance (left : Node) : Composed n (loop (operatorRound additiveKind? (term call)) left) :=
  composed_operators _ rfl inferInstance left

instance : Composed n (simpleExpression call) := by
  unfold simpleExpression
  infer_instance

instance : Composed n (expression call) := by
  unfold expression
  refine .bind _ _ inferInstance fun left => .bind token _ inferInstance fun t => ?_
  split <;> infer_instance

/-- What an expression starts with, class by class. -/
theorem expressionStart_cases {t : Token} (h : t ∈ expressionStart) :
    t = .plus ∨ t = .minus ∨ t = .kwNot ∨ (literalKind? t).isSome ∨ t = .lBrace ∨ t = .lParen ∨
      t ∈ identStart := by
  revert h
  cases t <;> decide

theorem consumes_simpleFactor (n : Nat) {call : Call} [Reliable n call] :
    Consumes (fun t => t ∈ expressionStart ∧ t ≠ .plus ∧ t ≠ .minus ∧ t ≠ .kwNot)
      (simpleFactor call) := by
  unfold simpleFactor
  refine .token_bind fun t ht => ?_
  have hadv : Consumes (· = t) advance := .advance (by
    rintro u rfl rfl
    exact absurd ht.1 (by decide))
  split
  · exact .leaf _ (by
      rintro u rfl rfl
      exact absurd ht.1 (by decide))
  · next hl =>
    split
    · exact hadv.bind (n := n) fun _ => inferInstance
    · split
      · exact hadv.bind (n := n) fun _ => inferInstance
      · split
        · next hi =>
          have hd : Consumes (· = t) (designator call) :=
            (consumes_designator n).mono (by rintro u rfl; exact hi)
          exact hd.bind (n := n) fun _ => inferInstance
        · next hb hp hi =>
          obtain ⟨he, hplus, hminus, hnot⟩ := ht
          rcases expressionStart_cases he with h | h | h | h | h | h | h
          · exact absurd h hplus
          · exact absurd h hminus
          · exact absurd h hnot
          · rw [hl] at h; cases h
          · exact absurd h hb
          · exact absurd h hp
          · exact absurd h hi

theorem consumes_factor (n : Nat) {call : Call} [Reliable n call] :
    Consumes (fun t => t ∈ expressionStart ∧ t ≠ .plus ∧ t ≠ .minus ∧ t ≠ .kwNot)
      (factor call) := by
  unfold factor
  exact (consumes_simpleFactor n).bind (n := n) fun _ => inferInstance

theorem consumes_simpleTerm (n : Nat) {call : Call} [Reliable n call] :
    Consumes (fun t => t ∈ expressionStart ∧ t ≠ .plus ∧ t ≠ .minus) (simpleTerm call) := by
  unfold simpleTerm
  refine .ifAt (fun _ => ?_) ((consumes_factor n).mono ?_)
  · exact (Consumes.advance (by rintro u rfl; decide)).bind (n := n) fun _ => inferInstance
  · rintro t ⟨⟨he, hplus, hminus⟩, hnot⟩
    exact ⟨he, hplus, hminus, hnot⟩

theorem consumes_term (n : Nat) {call : Call} [Reliable n call] :
    Consumes (fun t => t ∈ expressionStart ∧ t ≠ .plus ∧ t ≠ .minus) (term call) := by
  unfold term
  exact (consumes_simpleTerm n).bind (n := n) fun left =>
    composed_operators _ rfl inferInstance left

theorem consumes_signedTerm (n : Nat) {call : Call} [Reliable n call] :
    Consumes (· ∈ expressionStart) (signedTerm call) := by
  unfold signedTerm
  refine .token_bind fun t ht => ?_
  split
  · exact (Consumes.advance (by rintro u rfl; decide)).bind (n := n) fun _ => inferInstance
  · exact (Consumes.advance (by rintro u rfl; decide)).bind (n := n) fun _ => inferInstance
  · next hminus hplus =>
    refine (consumes_term n).mono ?_
    rintro u rfl
    exact ⟨ht, hplus, hminus⟩

theorem consumes_simpleExpression (n : Nat) {call : Call} [Reliable n call] :
    Consumes (· ∈ expressionStart) (simpleExpression call) := by
  unfold simpleExpression
  exact (consumes_signedTerm n).bind (n := n) fun left =>
    composed_operators _ rfl inferInstance left

theorem consumes_expression (n : Nat) {call : Call} [Reliable n call] :
    Consumes (· ∈ expressionStart) (expression call) := by
  unfold expression
  refine (consumes_simpleExpression n).bind (n := n) fun left => ?_
  refine .bind token _ inferInstance fun t => ?_
  split <;> infer_instance

end Expressions

/-! ## Types -/

section Types

instance : Composed n enumBase := by
  unfold enumBase
  infer_instance

instance : Composed n enumType := by
  unfold enumType
  infer_instance

instance : Composed n aliasType := by
  unfold aliasType
  infer_instance

instance : Composed n setType := by
  unfold setType
  infer_instance

instance (s : TokenSet) : Composed n (parameterType s) := by
  unfold parameterType
  infer_instance

instance (s : TokenSet) : Composed n (formalType s) := by
  unfold formalType
  refine .bind token _ inferInstance fun t => ?_
  split <;> infer_instance

instance : Composed n formalTypeList := by
  unfold formalTypeList
  infer_instance

instance : Composed n procedureType := by
  unfold procedureType
  infer_instance

variable {o : ParseOptions} {call : Call} [Reliable n call]

instance : Composed n (subrangeType call) := by
  unfold subrangeType
  infer_instance

instance : Composed n (arrayType call) := by
  unfold arrayType
  infer_instance

instance : Composed n (pointerType call) := by
  unfold pointerType
  infer_instance

instance : Composed n (fields call) := by
  unfold fields
  infer_instance

instance : Composed n (fieldList o call) := by
  unfold fieldList
  infer_instance

/-- What a field list starts with, class by class. -/
theorem fieldListStartOf_cases {records : RecordGrammar} {t : Token}
    (h : t ∈ fieldListStartOf records) : t ∈ identStart ∨ t = .kwCase := by
  revert h
  cases records <;> cases t <;> decide

theorem consumes_fieldList (n : Nat) (o : ParseOptions) {call : Call} [h : Reliable n call] :
    Consumes (· ∈ fieldListStartOf o.records) (fieldList o call) := by
  unfold fieldList
  refine .token_bind fun t ht => ?_
  dsimp only
  split
  · next hi =>
    have hn : Consumes (· = t) (identList ((fieldListFollow ∪ typeStart).insert .colon)) :=
      (consumes_identList _).mono (by rintro u rfl; exact hi)
    exact hn.bind (n := n) fun _ => inferInstance
  · split
    · next hi hc =>
      refine (h.consumes .variantFields).mono ?_
      rintro u rfl
      rw [hc.1]
      decide
    · next hi hc =>
      refine .of_false ?_
      rintro u rfl
      rcases fieldListStartOf_cases ht with h | h
      · exact hi h
      · exact hc ⟨h, ht⟩

instance : Composed n (semicolonList o (fieldListStartOf o.records) fieldsEnd (fieldList o call)) :=
  composed_semicolonList o fieldsEnd inferInstance (consumes_fieldList n o)

instance : Composed n (fieldListSequence o call) := by
  unfold fieldListSequence
  have := composed_missingItems (n := n) (c := .emptyFields) (.inr rfl)
  infer_instance

instance : Composed n (variant o call) := by
  unfold variant
  infer_instance

theorem composed_variantFieldList (n : Nat) (o : ParseOptions) (call : Call)
    [Reliable n call] : Composed n (variantFieldList o call) ∧
      Consumes (· = .kwCase) (variantFieldList o call) := by
  unfold variantFieldList
  refine composed_word (by decide) fun _ => .bind _ _ inferInstance fun tag => ?_
  refine .bind _ _ inferInstance fun _ => .bind _ _ inferInstance fun tagType => ?_
  refine .bind _ _ inferInstance fun _ => .bind _ _ inferInstance fun _ => ?_
  infer_instance

instance : Composed n recordBase := by
  unfold recordBase
  infer_instance

instance : Composed n (recordBody o call) := by
  unfold recordBody
  split <;> infer_instance

instance : Composed n (recordType o call) := by
  unfold recordType
  infer_instance

instance : Composed n (typeDenoter o call) := by
  unfold typeDenoter
  refine .bind token _ inferInstance fun t => ?_
  split <;> infer_instance

/-- What a type starts with, class by class. -/
theorem typeStart_cases {t : Token} (h : t ∈ typeStart) :
    t ∈ identStart ∨ t = .kwAlias ∨ t = .lBracket ∨ t = .lParen ∨ t = .kwSet ∨ t = .kwArray ∨
      t = .kwRecord ∨ t = .kwPointer ∨ t = .kwProcedure := by
  revert h
  cases t <;> decide

theorem consumes_typeDenoter (n : Nat) (o : ParseOptions) {call : Call} [Reliable n call] :
    Consumes (· ∈ typeStart) (typeDenoter o call) := by
  unfold typeDenoter
  refine .token_bind fun t ht => ?_
  have hadv {β : Type} (k : Unit → Parser β) (hk : ∀ u, Composed n (k u)) :
      Consumes (· = t) (advance >>= k) := by
    refine (Consumes.advance ?_).bind hk
    rintro u rfl rfl
    exact absurd ht (by decide)
  split
  · exact hadv _ fun _ => inferInstance
  · exact hadv _ fun _ => inferInstance
  · exact hadv _ fun _ => inferInstance
  · exact hadv _ fun _ => inferInstance
  · exact hadv _ fun _ => inferInstance
  · exact hadv _ fun _ => inferInstance
  · exact hadv _ fun _ => inferInstance
  · exact hadv _ fun _ => inferInstance
  · split
    · next hi => exact (consumes_qualident _).mono (by rintro u rfl; exact hi)
    · next hi =>
      refine .of_false ?_
      rintro u rfl
      rcases typeStart_cases ht with h | h | h | h | h | h | h | h | h
      · exact hi h
      all_goals contradiction

end Types

/-! ## Statements -/

section Statements

variable {o : ParseOptions} {call : Call}

instance [h : Reliable n call] :
    Composed n (semicolonList o statementStart statementsEnd (call .statement)) :=
  composed_semicolonList o statementsEnd (h.composed .statement) (h.consumes .statement)

theorem composed_statementSequence (n : Nat) (o : ParseOptions) {call : Call}
    [h : Reliable n call] : Composed n (statementSequence o call) := by
  unfold statementSequence
  have hm := composed_missingItems (n := n) (c := .emptyStatements) (.inl rfl)
  infer_instance

instance [Reliable n call] : Composed n (statementSequence o call) :=
  composed_statementSequence n o

variable [Reliable n call]

instance : Composed n (thenBranch o call) := by
  unfold thenBranch
  infer_instance

instance : Composed n (elseBranch o call) := by
  unfold elseBranch
  infer_instance

instance : Composed n (elsifBranch o call) := by
  unfold elsifBranch
  infer_instance

theorem consumes_elsifBranch (n : Nat) (o : ParseOptions) (call : Call) [Reliable n call] :
    Consumes (· ∈ tokens [.kwElsif]) (elsifBranch o call) := by
  unfold elsifBranch
  refine (Consumes.advance ?_).bind (n := n) fun _ => inferInstance
  rintro t ht rfl
  exact absurd ht (by decide)

instance : Composed n (whileAtAny (tokens [.kwElsif]) (elsifBranch o call)) :=
  .whileAtAny inferInstance (consumes_elsifBranch n o call)

instance : Composed n (caseBranch o call) := by
  unfold caseBranch
  infer_instance

instance (found : List Node) : Composed n (caseRound o call found) := by
  unfold caseRound
  infer_instance

theorem consuming_caseRound (n : Nat) (o : ParseOptions) {call : Call} [h : Reliable n call] :
    Consuming (caseRound o call) := by
  have hv : Consumes (· ∈ expressionStart) (valueComponent call) := by
    unfold valueComponent
    exact (h.consumes .expression).bind (n := n) fun _ => inferInstance
  have hb : Consumes (· ∈ expressionStart) (caseBranch o call) := by
    unfold caseBranch caseLabelList
    exact (Consumes.separated (n := n) inferInstance hv).map.bind (n := n) fun _ => inferInstance
  intro found p found' q hp hm
  rw [caseRound, exec_ifAt] at hm
  split at hm
  · next ht =>
    exact length_ahead_lt_of_advance (n := n) (by decide) (fun _ => inferInstance) hp ht hm
  · split at hm
    · rw [exec_ifAtAny] at hm
      split at hm
      · next ht => exact hb.more hp ht hm
      · cases hm
    · cases hm

instance (found : List Node) : Composed n (loop (caseRound o call) found) :=
  .loop _ found (fun _ => inferInstance) (consuming_caseRound n o)

/-- A statement rule is composed, and consumes the word or the identifier that it was chosen by. -/
theorem composed_of_statementRule? {t : Token} {rule : Parser Node}
    (h : statementRule? o call t = some rule) : Composed n rule ∧ Consumes (· = t) rule := by
  unfold statementRule? at h
  split at h
  · cases h; exact composed_word (by decide) fun _ => inferInstance
  · cases h; exact composed_word (by decide) fun _ => inferInstance
  · cases h; exact composed_word (by decide) fun _ => inferInstance
  · cases h; exact composed_word (by decide) fun _ => inferInstance
  · cases h; exact composed_word (by decide) fun _ => inferInstance
  · cases h
    refine composed_word (by decide) fun _ => ?_
    refine .bind _ _ inferInstance fun control => .bind _ _ inferInstance fun _ => ?_
    refine .bind _ _ inferInstance fun first => .bind _ _ inferInstance fun _ => ?_
    infer_instance
  · cases h; exact composed_word (by decide) fun _ => inferInstance
  · cases h; exact composed_word (by decide) fun _ => inferInstance
  · split at h
    · next hi =>
      cases h
      unfold assignmentOrCall
      have hd : Consumes (· = t) (designator call) :=
        (consumes_designator n).mono (by rintro u rfl; exact hi)
      refine ⟨.bind _ _ inferInstance fun d => ?_, hd.bind (n := n) fun d => ?_⟩
      all_goals
        refine .bind token _ inferInstance fun u => ?_
        split <;> infer_instance
    · cases h

instance : Composed n (statement o call) := by
  unfold statement
  refine .bind token _ inferInstance fun t => ?_
  split
  · next rule h =>
    have := (composed_of_statementRule? (n := n) h).1
    infer_instance
  · infer_instance

/-- What a statement starts with, class by class. -/
theorem statementStart_cases {t : Token} (h : t ∈ statementStart) :
    t ∈ identStart ∨ t = .kwIf ∨ t = .kwCase ∨ t = .kwLoop ∨ t = .kwWhile ∨ t = .kwRepeat ∨
      t = .kwFor ∨ t = .kwReturn ∨ t = .kwExit := by
  revert h
  cases t <;> decide

/-- A rule is found for every token that a statement starts with. -/
theorem isSome_statementRule? (o : ParseOptions) (call : Call) {t : Token}
    (h : t ∈ statementStart) : (statementRule? o call t).isSome := by
  rcases statementStart_cases h with hi | rfl | rfl | rfl | rfl | rfl | rfl | rfl | rfl
  · unfold statementRule?
    split <;> first | rfl | (rw [if_pos (show identStart.contains t = true from hi)]; rfl)
  all_goals rfl

theorem consumes_statement (n : Nat) (o : ParseOptions) {call : Call} [Reliable n call] :
    Consumes (· ∈ statementStart) (statement o call) := by
  unfold statement
  refine .token_bind fun t ht => ?_
  split
  · next rule h =>
    exact (composed_of_statementRule? (n := n) h).2.bind (n := n) fun node => inferInstance
  · next h =>
    have := isSome_statementRule? o call ht
    rw [h] at this
    cases this

end Statements

/-! ## Declarations -/

section Declarations

instance : Composed n countDeclaration := by
  unfold countDeclaration
  infer_instance

instance : Composed n countProcedure := by
  unfold countProcedure
  infer_instance

instance : Composed n parameterMode := by
  unfold parameterMode
  refine .bind token _ inferInstance fun t => ?_
  split <;> infer_instance

instance : Composed n formalParameters := by
  unfold formalParameters
  infer_instance

/-- Nothing is expected of parameters: no list of them goes on for want of a semicolon. -/
theorem consumes_formalParameters : Consumes (· ∈ (∅ : TokenSet)) formalParameters := by
  refine .of_false fun t ht => ?_
  exact absurd (TokenBitmap.contains_empty t) (by rw [show _ = true from ht]; decide)

instance (o : ParseOptions) :
    Composed n (semicolonList o ∅ (tokens [.rParen]) formalParameters) :=
  composed_semicolonList o _ inferInstance consumes_formalParameters

instance (o : ParseOptions) : Composed n (formalParameterList o) := by
  unfold formalParameterList
  infer_instance

instance (o : ParseOptions) : Composed n (procedureHeader o) := by
  unfold procedureHeader
  infer_instance

instance (o : ParseOptions) : Composed n (procedureDefinition o) := by
  unfold procedureDefinition
  infer_instance

instance (part : Part) : Composed n (opaqueType part) := by
  cases part with
  | definitions => unfold opaqueType; infer_instance
  | declarations =>
    unfold opaqueType
    have : Composed n (do report (faultAt .opaqueOutsideDefinition (← lookahead))) :=
      .note_some _ fun _ => .isOpaque
    exact (inferInstance : Composed n
      ((do report (faultAt .opaqueOutsideDefinition (← lookahead))) >>= fun _ =>
        advance >>= fun _ => pure (Tree.bare .opaqueType)))

variable {o : ParseOptions} {call : Call} [Reliable n call]

instance : Composed n (constantDefinition call) := by
  unfold constantDefinition
  infer_instance

instance (part : Part) : Composed n (typeDefinition call part) := by
  unfold typeDefinition
  infer_instance

instance : Composed n (variableDeclaration call) := by
  unfold variableDeclaration
  infer_instance

theorem consumes_constantDefinition (n : Nat) (call : Call) [Reliable n call] :
    Consumes (· ∈ identStart) (constantDefinition call) := by
  unfold constantDefinition
  exact (consumes_ident _).bind (n := n) fun _ => inferInstance

theorem consumes_typeDefinition (n : Nat) (call : Call) [Reliable n call] (part : Part) :
    Consumes (· ∈ identStart) (typeDefinition call part) := by
  unfold typeDefinition
  exact (consumes_ident _).bind (n := n) fun _ => inferInstance

theorem consumes_variableDeclaration (n : Nat) (call : Call) [Reliable n call] :
    Consumes (· ∈ identStart) (variableDeclaration call) := by
  unfold variableDeclaration
  exact (consumes_identList _).bind (n := n) fun _ => inferInstance

/-- An item of a section with the semicolon behind it. -/
def declaredItem (item : Parser Node) : Parser Node := do
  let node ← item
  expect .semicolon behindDeclaredItem
  return node

theorem declarationSection_eq (item : Parser Node) :
    declarationSection item =
      advance >>= fun _ => whileAtAny identStart (declaredItem item) := rfl

instance {item : Parser Node} [Composed n item] : Composed n (declaredItem item) := by
  unfold declaredItem
  infer_instance

theorem consumes_declaredItem {item : Parser Node} (h : Consumes (· ∈ identStart) item) :
    Consumes (· ∈ identStart) (declaredItem item) := by
  unfold declaredItem
  exact h.bind (n := 0) fun _ => inferInstance

/-- A section is composed and consumes its word, if its items consume an identifier. -/
theorem composed_declarationSection {item : Parser Node} (hi : Composed n item)
    (hc : Consumes (· ∈ identStart) item) :
    Composed n (declarationSection item) ∧
      Consumes (· ≠ .endOfFile) (declarationSection item) := by
  rw [declarationSection_eq]
  have : Composed n (whileAtAny identStart (declaredItem item)) :=
    .whileAtAny inferInstance (consumes_declaredItem hc)
  exact ⟨inferInstance, (Consumes.advance fun _ => id).bind (n := n) fun _ => inferInstance⟩

theorem composed_constantSection (n : Nat) (call : Call) [Reliable n call] :
    Composed n (declarationSection (constantDefinition call)) ∧
      Consumes (· ≠ .endOfFile) (declarationSection (constantDefinition call)) :=
  composed_declarationSection inferInstance (consumes_constantDefinition n call)

theorem composed_typeSection (n : Nat) (call : Call) [Reliable n call] (part : Part) :
    Composed n (declarationSection (typeDefinition call part)) ∧
      Consumes (· ≠ .endOfFile) (declarationSection (typeDefinition call part)) :=
  composed_declarationSection inferInstance (consumes_typeDefinition n call part)

theorem composed_variableSection (n : Nat) (call : Call) [Reliable n call] :
    Composed n (declarationSection (variableDeclaration call)) ∧
      Consumes (· ≠ .endOfFile) (declarationSection (variableDeclaration call)) :=
  composed_declarationSection inferInstance (consumes_variableDeclaration n call)

instance (part : Part) : Composed n (procedureIn o call part) := by
  cases part <;> unfold procedureIn <;> infer_instance

instance (part : Part) (found : List (List Node)) :
    Composed n (declarationRound o call part found) := by
  unfold declarationRound
  have := (composed_constantSection n call).1
  have := (composed_typeSection n call part).1
  have := (composed_variableSection n call).1
  refine .bind token _ inferInstance fun t => ?_
  split <;> infer_instance

theorem consumes_procedureHeader (o : ParseOptions) :
    Consumes (· = .kwProcedure) (procedureHeader o) := by
  unfold procedureHeader
  refine (Consumes.advance ?_).bind (n := 0) fun _ => inferInstance
  rintro t rfl
  decide

theorem consumes_procedureDeclaration (n : Nat) (o : ParseOptions) (call : Call)
    (hb : Composed n (block o call)) :
    Consumes (· = .kwProcedure) (procedureDeclaration o call) := by
  unfold procedureDeclaration
  exact (consumes_procedureHeader o).bind (n := n) fun _ => inferInstance

theorem consumes_procedureIn (n : Nat) (o : ParseOptions) {call : Call} [h : Reliable n call]
    (part : Part) : Consumes (· = .kwProcedure) (procedureIn o call part) := by
  cases part with
  | definitions =>
    unfold procedureIn procedureDefinition
    exact (consumes_procedureHeader o).bind (n := n) fun _ => inferInstance
  | declarations =>
    refine (h.consumes .procedure).mono ?_
    rintro t rfl
    decide

/-- A section or a procedure starts with one of these words. -/
theorem not_mem_declarationStart {t : Token} (hconst : t ≠ .kwConst) (htype : t ≠ .kwType)
    (hvar : t ≠ .kwVar) (hproc : t ≠ .kwProcedure) : t ∉ declarationStart := by
  revert hconst htype hvar hproc
  cases t <;> decide

/-- A round goes on behind a section or a procedure, which it has read, or behind a skip: where it
skips, the next symbol is none that it could stop at. -/
theorem consuming_declarationRound (n : Nat) (o : ParseOptions) {call : Call}
    [h : Reliable n call] (part : Part) : Consuming (declarationRound o call part) := by
  intro found p found' q hp hm
  rw [declarationRound, exec_bind, exec_token, proceed_ok] at hm
  split at hm
  · next ht => exact (composed_constantSection n call).2.more hp (by rw [ht]; decide) hm
  · next ht => exact (composed_typeSection n call part).2.more hp (by rw [ht]; decide) hm
  · next ht => exact (composed_variableSection n call).2.more hp (by rw [ht]; decide) hm
  · next ht => exact (consumes_procedureIn n o part).more hp ht hm
  · next hconst htype hvar hproc =>
    rw [exec_ifAtAny] at hm
    split at hm
    · cases hm
    · next hc =>
      have hclosers : part.closers.contains .endOfFile = true := by cases part <;> decide
      have hns : p.lookahead.token ∉ declarationStart ∪ part.closers := by
        intro hin
        exact (TokenBitmap.mem_union.1 hin).elim (not_mem_declarationStart hconst htype hvar hproc)
          hc
      have hne : p.lookahead.token ≠ .endOfFile := fun ht => hc (ht ▸ hclosers)
      have hskip : Consumes (· = p.lookahead.token)
          (expectAny (declarationStart ∪ part.closers) (declarationStart ∪ part.closers)) :=
        .expectAny (by rintro t rfl; exact ⟨hne, hns⟩)
      exact hskip.more hp rfl hm

instance (part : Part) (found : List (List Node)) :
    Composed n (loop (declarationRound o call part) found) :=
  .loop _ found (fun _ => inferInstance) (consuming_declarationRound n o part)

instance (part : Part) : Composed n (declarationList o call part) := by
  unfold declarationList
  infer_instance

instance : Composed n (block o call) := by
  unfold block
  infer_instance

instance : Composed n (procedureDeclaration o call) := by
  unfold procedureDeclaration
  infer_instance

end Declarations

/-! ## Nested constructs -/

instance {o : ParseOptions} {call : Call} [Reliable n call] (x : Nested) :
    Composed n (nestedRule o call x) := by
  have := (composed_variantFieldList n o call).1
  cases x <;> unfold nestedRule <;> infer_instance

theorem consumes_nestedRule (n : Nat) (o : ParseOptions) {call : Call} [Reliable n call]
    (x : Nested) : Consumes (· ∈ x.start) (nestedRule o call x) := by
  cases x with
  | expression => exact consumes_expression n
  | statement => exact consumes_statement n o
  | type => exact consumes_typeDenoter n o
  | procedure =>
    refine (consumes_procedureDeclaration n o call inferInstance).mono fun t ht => ?_
    revert ht
    cases t <;> decide
  | variantFields =>
    refine (composed_variantFieldList n o call).2.mono fun t ht => ?_
    revert ht
    cases t <;> decide

/-- The nested constructs can be relied on, however many levels are left. -/
instance reliable_nested (o : ParseOptions) (levels : Nat) :
    Reliable o.maxNesting (nested o levels) := by
  induction levels with
  | zero =>
    constructor
    · intro x
      exact .giveUp
    · intro x p a q _ _ hm
      cases hm
  | succ levels ih =>
    constructor
    · intro x
      exact (inferInstance : Composed o.maxNesting (nestedRule o (nested o levels) x))
    · intro x
      exact consumes_nestedRule o.maxNesting o x

instance (o : ParseOptions) : Reliable o.maxNesting (outermost o) :=
  reliable_nested o o.maxNesting

/-! ## Compilation units -/

section Units

instance : Composed n unqualifiedImport := by
  unfold unqualifiedImport
  infer_instance

instance : Composed n qualifiedImport := by
  unfold qualifiedImport
  infer_instance

instance : Composed n importClause := by
  unfold importClause
  infer_instance

theorem consumes_importClause : Consumes (· ∈ importStart) importClause := by
  have hadv {S : Token → Prop} (hS : ∀ t, S t → t ∈ importStart) : Consumes S advance := by
    refine .advance fun t ht => ?_
    rintro rfl
    exact absurd (hS _ ht) (by decide)
  unfold importClause
  refine Consumes.bind (n := 0) (.ifAt (fun ht => ?_) ?_) fun _ => inferInstance
  · unfold unqualifiedImport
    exact (hadv (by rintro t rfl; exact ht)).bind (n := 0) fun _ => inferInstance
  · unfold qualifiedImport
    exact (hadv fun t ht => ht.1).bind (n := 0) fun _ => inferInstance

instance : Composed n (whileAtAny importStart importClause) :=
  .whileAtAny inferInstance consumes_importClause

instance : Composed n importList := by
  unfold importList
  infer_instance

instance : Composed n moduleHeader := by
  unfold moduleHeader
  infer_instance

instance (name : Node) : Composed n (unitClosing name) := by
  unfold unitClosing
  infer_instance

instance (o : ParseOptions) : Composed o.maxNesting (definitionModule o) := by
  unfold definitionModule
  infer_instance

instance (o : ParseOptions) (kind : Kind) : Composed o.maxNesting (programModule o kind) := by
  unfold programModule
  infer_instance

end Units

/-! ## Repetitions -/

/-- The rounds of all repetitions of the grammar. -/
inductive RoundOf (o : ParseOptions) (call : Call) : {α : Type} → (α → Parser (Round α)) → Prop where
  | identifiers (s : TokenSet) : RoundOf o call (separatedRound .comma (ident s))
  | qualifiers (s : TokenSet) : RoundOf o call (qualidentRound s)
  | imports : RoundOf o call (whileRound importStart importClause)
  | expressions : RoundOf o call (separatedRound .comma (call .expression))
  | values : RoundOf o call (separatedRound .comma (valueComponent call))
  | selectors : RoundOf o call (selectorRound call)
  | factors : RoundOf o call (operatorRound multiplicativeKind? (simpleTerm call))
  | terms : RoundOf o call (operatorRound additiveKind? (term call))
  | formalTypes (s : TokenSet) : RoundOf o call (separatedRound .comma (formalType s))
  | variants : RoundOf o call (separatedRound .bar (variant o call))
  | fieldLists :
    RoundOf o call (semicolonRound o (fieldListStartOf o.records) fieldsEnd (fieldList o call))
  | statements :
    RoundOf o call (semicolonRound o statementStart statementsEnd (call .statement))
  | elsifBranches : RoundOf o call (whileRound (tokens [.kwElsif]) (elsifBranch o call))
  | caseBranches : RoundOf o call (caseRound o call)
  | parameters : RoundOf o call (semicolonRound o ∅ (tokens [.rParen]) formalParameters)
  | constants : RoundOf o call (whileRound identStart (declaredItem (constantDefinition call)))
  | types (part : Part) :
    RoundOf o call (whileRound identStart (declaredItem (typeDefinition call part)))
  | variableLists :
    RoundOf o call (whileRound identStart (declaredItem (variableDeclaration call)))
  | sections (part : Part) : RoundOf o call (declarationRound o call part)

/-- No repetition of the grammar goes on unless its last round has consumed a symbol. -/
theorem RoundOf.consuming {o : ParseOptions} {call : Call} [hcall : Reliable n call]
    {round : α → Parser (Round α)} (h : RoundOf o call round) : Consuming round := by
  cases h with
  | identifiers s => exact consuming_separatedRound (n := n) (by decide) inferInstance
  | qualifiers s => exact consuming_qualidentRound s
  | imports => exact consuming_whileRound consumes_importClause
  | expressions => exact consuming_separatedRound (by decide) (hcall.composed .expression)
  | values => exact consuming_separatedRound (n := n) (by decide) inferInstance
  | selectors => exact consuming_selectorRound n
  | factors => exact consuming_operatorRound (n := n) rfl inferInstance
  | terms => exact consuming_operatorRound (n := n) rfl inferInstance
  | formalTypes s => exact consuming_separatedRound (n := n) (by decide) inferInstance
  | variants => exact consuming_separatedRound (n := n) (by decide) inferInstance
  | fieldLists => exact consuming_semicolonRound (n := n) o _ inferInstance (consumes_fieldList n o)
  | statements =>
    exact consuming_semicolonRound o _ (hcall.composed .statement) (hcall.consumes .statement)
  | elsifBranches => exact consuming_whileRound (consumes_elsifBranch n o call)
  | caseBranches => exact consuming_caseRound n o
  | parameters => exact consuming_semicolonRound (n := n) o _ inferInstance consumes_formalParameters
  | constants =>
    exact consuming_whileRound (consumes_declaredItem (consumes_constantDefinition n call))
  | types part =>
    exact consuming_whileRound (consumes_declaredItem (consumes_typeDefinition n call part))
  | variableLists =>
    exact consuming_whileRound (consumes_declaredItem (consumes_variableDeclaration n call))
  | sections part => exact consuming_declarationRound n o part

end Grammar

end Modula
