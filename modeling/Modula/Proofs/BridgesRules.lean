import Modula.Proofs.AlikeRules
import Modula.Proofs.Bridges

/-!
# The rules of the grammar bridge omissions

Rule by rule: a list ends in front of what closes it, and a rule that cannot start at a separator
need not start at the omission.
-/

namespace Modula

open Modula.Parser

/-- The nested constructs bridge the omission, and start where they should. Procedures and variants
are called only where they start. -/
class BridgingCalls (H : Omission) (call : Call) : Prop where
  expression : Bridges H .any (call .expression)
  statement : Bridges H .any (call .statement)
  type : Bridges H .any (call .type)
  procedure : Approaches H (.inFrontOf Grammar.declarationFollow) (call .procedure)
  variantFields : Approaches H .any (call .variantFields)
  opens_statement : Opens H Grammar.statementStart .any (call .statement)

namespace Grammar

set_option synthInstance.maxSize 10000

/-! ## Sets -/

/-- What comes behind the last of several branches or variants. -/
def branchesEnd : TokenSet := tokens [.kwElse, .kwEnd]

instance : Includes expressionStart noSeparator := ⟨by decide⟩

instance : Includes typeStart noSeparator := ⟨by decide⟩

instance : Includes statementStart noSeparator := ⟨by decide⟩

instance (o : ParseOptions) : Includes (fieldListStartOf o.records) noSeparator := by
  cases o.records <;> exact ⟨by decide⟩

instance : Includes identStart typeStart := ⟨by decide⟩

instance : Includes identStart statementStart := ⟨by decide⟩

instance (o : ParseOptions) : Includes identStart (fieldListStartOf o.records) := by
  cases o.records <;> exact ⟨by decide⟩

instance : Includes (tokens [.kwElse]) branchesEnd := ⟨by decide⟩

instance : Includes (tokens [.kwEnd]) branchesEnd := ⟨by decide⟩

instance : Includes branchesEnd fieldsEnd := ⟨by decide⟩

instance : Includes branchesEnd statementsEnd := ⟨by decide⟩

instance : Includes branchesEnd noSeparator := ⟨by decide⟩

instance : Includes (tokens [.bar]) statementsEnd := ⟨by decide⟩

instance : Includes fieldsEnd noSeparator := ⟨by decide⟩

instance : Includes statementsEnd noSeparator := ⟨by decide⟩

instance : Includes statementStart statementOrFollow := ⟨by decide⟩

instance : Includes (tokens [.kwElse]) statementsEnd := ⟨by decide⟩

instance : Includes (tokens [.kwElsif]) statementsEnd := ⟨by decide⟩

instance : Includes (tokens [.kwEnd]) statementsEnd := ⟨by decide⟩

instance : Includes (tokens [.kwUntil]) statementsEnd := ⟨by decide⟩

instance : Includes (tokens [.bar]) fieldsEnd := ⟨by decide⟩

instance : Includes (tokens [.kwEnd]) fieldsEnd := ⟨by decide⟩

/-! ## Names and sequences -/

variable {H : Omission} {F : TokenSet}

instance {Q : Hindsight Node} (s : TokenSet) : Bridges H Q (identList s) := by
  unfold identList
  infer_instance

instance {Q : Hindsight Node} [Includes identStart F] (s : TokenSet) :
    Opens H F Q (identList s) := by
  unfold identList
  infer_instance

instance (s : TokenSet) (parts : List Node) {Q : Hindsight (Round (List Node))} :
    Bridges H Q (qualidentRound s parts) := by
  unfold qualidentRound
  infer_instance

instance {Q : Hindsight Node} (s : TokenSet) : Bridges H Q (qualident s) := by
  have (parts : List Node) : Bridges H .any (loop (qualidentRound s) parts) :=
    .loop_any inferInstance (fun _ => inferInstance) (consuming_qualidentRound s) parts
  unfold qualident
  infer_instance

section Optional

variable {rule : Parser Node} {w : Token} [Composed H.limit rule]

instance {Q : Hindsight Node} [IsTrue w.goesOn] [Bridges H Q rule] :
    Bridges H Q (optionalAt w rule) := by
  unfold optionalAt
  infer_instance

/-- What may be left out ends in front of what comes behind it. -/
instance [EndsInFrontOf H rule F] [IsTrue w.isNoSeparator] [Includes F noSeparator] :
    EndsInFrontOf H (optionalAt w rule) F := by
  unfold optionalAt
  exact ⟨.of_approaches⟩

instance {G : TokenSet} [Includes (tokens [w]) F] [Includes G F] :
    Opens H F (.inFrontOf G) (optionalAt w rule) := by
  unfold optionalAt
  infer_instance

end Optional

/-! ## Expressions -/

section Expressions

variable {call : Call} [Reliable H.limit call] [hcall : BridgingCalls H call] {Q : Hindsight Node}

instance : Bridges H Q (call .expression) := hcall.expression.of_any

instance : Bridges H Q (expressionList call) := by
  unfold expressionList
  infer_instance

instance : Bridges H Q (valueComponent call) := by
  unfold valueComponent
  infer_instance

instance : Bridges H Q (caseLabelList call) := by
  unfold caseLabelList
  infer_instance

instance : Approaches H Q (structuredValue call) := by
  unfold structuredValue
  infer_instance

instance : Approaches H Q (actualParameters call) := by
  unfold actualParameters
  infer_instance

instance (d : Node) {Q : Hindsight (Round Node)} : Bridges H Q (selectorRound call d) := by
  unfold selectorRound
  refine .token_bind (u := .semicolon) (fun t => ?_) (fun t ht => ?_) ?_
  · split <;> infer_instance
  · cases t <;> first | rfl | cases ht
  · infer_instance

instance : Bridges H Q (designator call) := by
  have (d : Node) : Bridges H Q (loop (selectorRound call) d) :=
    .loop_any inferInstance (fun _ => inferInstance) (consuming_selectorRound H.limit) d
  unfold designator
  infer_instance

instance : Bridges H Q (designatorOrCall call) := by
  unfold designatorOrCall
  infer_instance

instance : Approaches H Q (parenthesized call) := by
  unfold parenthesized
  infer_instance

instance [hF : Includes expressionStart F] : Opens H F Q (simpleFactor call) := by
  have hstart : ∀ t : Token, t ∈ expressionStart ∨ literalKind? t = none ∧ t ≠ .lBrace ∧
      t ≠ .lParen ∧ identStart.contains t = false := by
    intro t
    cases t <;> decide
  unfold simpleFactor
  refine .token_bind fun t => ?_
  rcases hstart t with ht | ⟨hliteral, hbrace, hparen, hident⟩
  · exact .inl (hF.mem ht)
  · rw [hliteral]
    dsimp only
    rw [if_neg hbrace, if_neg hparen, hident, if_neg Bool.false_ne_true]
    exact .inr inferInstance

instance : Bridges H Q (simpleFactor call) := by
  have : Approaches H Q (simpleFactor call) := by
    unfold simpleFactor
    refine .token_bind fun t => ?_
    split <;> infer_instance
  exact .of_approaches

instance : Bridges H Q (factor call) := by
  unfold factor
  infer_instance

instance : Bridges H Q (simpleTerm call) := by
  unfold simpleTerm
  infer_instance

theorem bridges_operators {kind? : Token → Option Kind}
    (hkind : ∀ t : Token, t.goesOn = false → kind? t = none) {operand : Parser Node}
    [Composed H.limit operand] [Bridges H .any operand] (left : Node) :
    Bridges H Q (loop (operatorRound kind? operand) left) := by
  refine .loop_any (fun left => ?_) (fun _ => inferInstance)
    (consuming_operatorRound (n := H.limit) (hkind _ rfl) inferInstance) left
  unfold operatorRound
  refine .token_bind (u := .semicolon) (fun t => ?_) (fun t ht => ?_) ?_
  · split <;> infer_instance
  · rw [hkind t ht, hkind .semicolon rfl]
  · rw [hkind .semicolon rfl]
    infer_instance

instance : Bridges H Q (term call) := by
  have (left : Node) :
      Bridges H Q (loop (operatorRound multiplicativeKind? (simpleTerm call)) left) :=
    bridges_operators (by intro t; cases t <;> decide) left
  unfold term
  infer_instance

instance : Bridges H Q (signedTerm call) := by
  unfold signedTerm
  refine .token_bind (u := .semicolon) (fun t => ?_) (fun t ht => ?_) ?_
  · split <;> infer_instance
  · cases t <;> first | rfl | cases ht
  · infer_instance

instance : Bridges H Q (simpleExpression call) := by
  have (left : Node) : Bridges H Q (loop (operatorRound additiveKind? (term call)) left) :=
    bridges_operators (by intro t; cases t <;> decide) left
  unfold simpleExpression
  infer_instance

instance : Bridges H Q (expression call) := by
  have hkind : ∀ t : Token, t.goesOn = false → relationKind? t = none := by
    intro t
    cases t <;> decide
  unfold expression
  refine .bind_of (Q := .any) inferInstance (fun left => ?_) (fun left => ?_)
    fun _ _ _ _ _ _ _ => trivial
  · refine .token_bind (u := .semicolon) (fun t => ?_) (fun t ht => ?_) ?_
    · split <;> infer_instance
    · rw [hkind t ht, hkind .semicolon rfl]
    · exact (inferInstance : Bridges H Q (pure left))
  · refine .bind token _ inferInstance fun t => ?_
    split <;> infer_instance

end Expressions

/-! ## Types -/

section Types

variable {Q : Hindsight Node}

instance : Bridges H Q enumBase := by
  unfold enumBase
  infer_instance

instance : Approaches H Q enumType := by
  unfold enumType
  infer_instance

instance : Approaches H Q aliasType := by
  unfold aliasType
  infer_instance

instance : Approaches H Q setType := by
  unfold setType
  infer_instance

instance (s : TokenSet) : Bridges H Q (parameterType s) := by
  unfold parameterType
  infer_instance

instance (s : TokenSet) : Bridges H Q (formalType s) := by
  unfold formalType
  refine .token_bind (u := .semicolon) (fun t => ?_) (fun t ht => ?_) ?_
  · split <;> infer_instance
  · cases t <;> first | rfl | cases ht
  · exact inferInstanceAs (Bridges H Q (parameterType s))

instance : Bridges H Q formalTypeList := by
  unfold formalTypeList
  infer_instance

instance : Approaches H Q procedureType := by
  unfold procedureType
  infer_instance

variable {call : Call} [Reliable H.limit call] [hcall : BridgingCalls H call] {o : ParseOptions}

instance : Bridges H Q (call .type) := hcall.type.of_any

instance : Approaches H Q (call .variantFields) := hcall.variantFields.of_any

instance : Approaches H Q (subrangeType call) := by
  unfold subrangeType
  infer_instance

instance : Approaches H Q (arrayType call) := by
  unfold arrayType
  infer_instance

instance : Approaches H Q (pointerType call) := by
  unfold pointerType
  infer_instance

instance : Bridges H Q (fields call) := by
  unfold fields
  infer_instance

instance [hF : Includes (fieldListStartOf o.records) F] : Opens H F Q (fieldList o call) := by
  unfold fieldList
  refine .token_bind fun t => ?_
  dsimp only
  split
  · next ht => exact .inl (hF.mem (Includes.mem inferInstance ht))
  · split
    · next ht => exact .inl (hF.mem ht.2)
    · exact .inr inferInstance

instance : Bridges H Q (fieldList o call) := by
  have : Approaches H Q (fieldList o call) := by
    unfold fieldList
    exact .token_bind fun t => inferInstance
  exact .of_approaches

instance : EndsInFrontOf H (fieldListSequence o call) fieldsEnd :=
  (bridges_sequence .emptyFields (listNode .fieldListSequence) inferInstance
    inferInstance (consumes_fieldList H.limit o) inferInstance inferInstance inferInstance).1

instance : EndsInFrontOf H (variant o call) fieldsEnd := by
  unfold variant
  constructor
  infer_instance

instance : Approaches H Q (variantFieldList o call) := by
  have : EndsInFrontOf H (ifAtAny identStart (leaf .ident) (pure .empty)) (tokens [.colon]) :=
    ⟨.of_approaches⟩
  have : EndsInFrontOf H (separated .bar (variant o call)) branchesEnd :=
    ⟨bridges_separated_of_ends⟩
  unfold variantFieldList
  infer_instance

instance : Bridges H Q recordBase := by
  unfold recordBase
  infer_instance

instance : EndsInFrontOf H (recordBody o call) fieldsEnd := by
  unfold recordBody
  constructor
  split <;> infer_instance

instance : Approaches H Q (recordType o call) := by
  unfold recordType
  infer_instance

instance [hF : Includes typeStart F] : Opens H F Q (typeDenoter o call) := by
  unfold typeDenoter
  refine .token_bind fun t => ?_
  by_cases ht : t ∈ typeStart
  · exact .inl (hF.mem ht)
  · right
    split
    all_goals try first | exact absurd (show _ ∈ typeStart by decide) ht
    have : ¬identStart.contains t = true := fun h => ht (Includes.mem inferInstance h)
    rw [if_neg this]
    infer_instance

instance : Bridges H Q (typeDenoter o call) := by
  have : Approaches H Q (typeDenoter o call) := by
    unfold typeDenoter
    refine .token_bind fun t => ?_
    split <;> infer_instance
  exact .of_approaches

end Types

/-! ## Statements -/

section Statements

variable {Q : Hindsight Node} {call : Call} [Reliable H.limit call] [hcall : BridgingCalls H call]
  {o : ParseOptions}

instance : Bridges H Q (call .statement) := hcall.statement.of_any

instance : Opens H statementStart Q (call .statement) := hcall.opens_statement.of_any inferInstance

theorem bridges_statementSequence : EndsInFrontOf H (statementSequence o call) statementsEnd ∧
    ∀ Q, Opens H statementStart Q (statementSequence o call) :=
  bridges_sequence .emptyStatements (listNode .statementSequence) inferInstance inferInstance
    (Reliable.consumes (n := H.limit) .statement) inferInstance inferInstance inferInstance

instance : EndsInFrontOf H (statementSequence o call) statementsEnd := bridges_statementSequence.1

instance [hF : Includes statementStart F] : Opens H F Q (statementSequence o call) :=
  (bridges_statementSequence.2 .any).of_any hF

instance : Bridges H Q (assignmentOrCall call) := by
  unfold assignmentOrCall
  refine .bind_of (Q := .any) inferInstance (fun d => ?_) (fun d => ?_) fun _ _ _ _ _ _ _ => trivial
  · refine .token_bind (u := .semicolon) (fun t => ?_) (fun t ht => ?_) ?_
    · split <;> infer_instance
    · cases t <;> first | rfl | cases ht
    · infer_instance
  · refine .bind token _ inferInstance fun t => ?_
    split <;> infer_instance

instance : EndsInFrontOf H (thenBranch o call) statementsEnd := by
  unfold thenBranch
  constructor
  infer_instance

instance : EndsInFrontOf H (elseBranch o call) statementsEnd := by
  unfold elseBranch
  infer_instance

instance {G : TokenSet} [Includes (tokens [.kwElse]) F] [Includes G F] :
    Opens H F (.inFrontOf G) (elseBranch o call) := by
  unfold elseBranch
  infer_instance

instance {G : TokenSet} [Includes G statementsEnd] :
    Approaches H (.inFrontOf G) (elsifBranch o call) := by
  unfold elsifBranch
  infer_instance

instance : EndsInFrontOf H (whileAtAny (tokens [.kwElsif]) (elsifBranch o call)) branchesEnd :=
  ⟨bridges_whileAtAny (F := statementsEnd) inferInstance inferInstance
    (consumes_elsifBranch H.limit o call) inferInstance inferInstance inferInstance⟩

instance : Opens H statementsEnd (.inFrontOf statementsEnd)
    (whileAtAny (tokens [.kwElsif]) (elsifBranch o call)) :=
  opens_whileAtAny inferInstance inferInstance inferInstance

instance : Approaches H Q (ifStatement o call) := by
  unfold ifStatement
  infer_instance

instance : EndsInFrontOf H (caseBranch o call) statementsEnd := by
  unfold caseBranch
  constructor
  infer_instance

/-- Behind a branch comes another one, or what comes behind the last one. -/
def behindCase : Hindsight (Round (List Node))
  | .more found, q => found = [] ∨ q.lookahead.token ∈ statementsEnd
  | .done _, q => q.lookahead.token ∈ branchesEnd

instance : EndsInFrontOf H (loop (caseRound o call) []) branchesEnd := by
  refine ⟨.loop (S := behindCase) (fun found => ?_) (fun _ => inferInstance)
    (consuming_caseRound H.limit o) (fun _ _ => id) (fun found _ _ _ hx hq hQ => ?_) []⟩
  · have (branch : Node) : Opens H statementsEnd behindCase (pure (.more (branch :: found))) :=
      .pure fun _ h => h.resolve_left (List.cons_ne_nil branch found)
    have : Opens H noSeparator behindCase (pure (.done found)) :=
      .pure fun _ h => Includes.mem (S := branchesEnd) inferInstance h
    have : Bridges H behindCase (ifAtAny expressionStart
        (return .more ((← caseBranch o call) :: found)) (return .done found)) := .of_approaches
    unfold caseRound
    infer_instance
  · -- Once a branch was read, another one needs a bar in front of it.
    cases found with
    | nil => exact .inl rfl
    | cons branch found =>
      have hround : Opens H statementsEnd (.lastly (.inFrontOf branchesEnd))
          (caseRound o call (branch :: found)) := by
        have : Opens H statementsEnd (.lastly (.inFrontOf branchesEnd))
            (pure (.done (branch :: found))) :=
          .pure fun _ h => Includes.mem (S := branchesEnd) inferInstance h
        unfold caseRound
        rw [List.isEmpty_cons, if_neg Bool.false_ne_true]
        infer_instance
      exact .inr ((Opens.loop hround fun _ => inferInstance).token_mem hx hq hQ)

instance : Approaches H Q (caseStatement o call) := by
  unfold caseStatement
  infer_instance

instance : Approaches H Q (loopStatement o call) := by
  unfold loopStatement
  infer_instance

instance : Approaches H Q (whileStatement o call) := by
  unfold whileStatement
  infer_instance

instance : Approaches H Q (repeatStatement o call) := by
  unfold repeatStatement
  infer_instance

instance : Approaches H Q (forStatement o call) := by
  unfold forStatement
  infer_instance

instance : Approaches H Q exitStatement := by
  unfold exitStatement
  infer_instance

omit [Reliable H.limit call] in
/-- A value stands behind `RETURN` only if one does with the separator. -/
theorem matches_returnStatement {p p' q : Progress} {a : Node} (hp : H.Apart p p')
    (ht : p.lookahead.token = .kwReturn) (hx : (returnStatement call).exec p = (.ok a, q))
    (hq : q.IsClean) : H.Matches (returnStatement call) p' a q := by
  have hvalue : Approaches H .any (do
      let value ← ifAtAny expressionStart (call .expression) (return .empty)
      return Tree.branch .returnStatement [value]) := inferInstance
  exact hvalue.run (hp.advance_return ht) hx hq trivial

theorem approaches_of_statementRule? {t : Token} {rule : Parser Node} (ht : t ≠ .kwReturn)
    (h : statementRule? o call t = some rule) : Approaches H .any rule := by
  unfold statementRule? at h
  split at h
  any_goals first | exact absurd rfl ht | (cases h; infer_instance)
  split at h
  · cases h
    infer_instance
  · cases h

theorem statementRule?_eq_none {t : Token} (ht : t ∉ statementStart) :
    statementRule? o call t = none := by
  unfold statementRule?
  split
  all_goals try first | exact absurd (show _ ∈ statementStart by decide) ht
  exact if_neg fun h => ht (Includes.mem (S := identStart) inferInstance h)

instance [hF : Includes statementStart F] : Opens H F Q (statement o call) := by
  unfold statement
  refine .token_bind fun t => ?_
  by_cases ht : t ∈ statementStart
  · exact .inl (hF.mem ht)
  · rw [statementRule?_eq_none ht]
    exact .inr inferInstance

instance : Approaches H Q (statement o call) := by
  refine ⟨fun {p p' a q} hp hx hq hQ => ?_⟩
  unfold Omission.Matches
  unfold statement at hx ⊢
  rw [exec_bind, exec_token, proceed_ok] at hx ⊢
  rw [← hp.lookahead_eq]
  generalize ht : p.lookahead.token = t at hx ⊢
  cases hrule : statementRule? o call t with
  | none =>
    rw [hrule] at hx
    exact Approaches.run (m := do expectAny statementStart statementFollow; return .empty)
      hp hx hq hQ
  | some rule =>
    rw [hrule] at hx
    have hcount := Bridges.count (H := H) tallies_statements (Q := .any)
    have hbehind (node : Node) : Bridges H Q (do
        count fun s => { s with statements := s.statements + 1 }
        return node) := inferInstance
    obtain ⟨node, r, hnode, hb⟩ := exec_bind_eq_ok.1 hx
    have hclean : r.IsClean := hq.of_exec (n := H.limit) inferInstance hb
    have hmatch : H.Matches rule p' node r := by
      by_cases hreturn : t = .kwReturn
      · subst hreturn
        cases hrule
        exact matches_returnStatement hp ht hnode hclean
      · exact (approaches_of_statementRule? hreturn hrule).run hp hnode hclean trivial
    exact hmatch.bind (hbehind node) hb hq hQ

instance : Bridges H Q (statement o call) := .of_approaches

end Statements

end Grammar

end Modula
