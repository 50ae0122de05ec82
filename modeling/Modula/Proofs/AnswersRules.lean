import Modula.Proofs.Answers
import Modula.Proofs.Outcome

/-!
# The rules of the grammar near the end of a source

A nested construct is called behind a symbol of the construct that calls it, also where faults are
recovered from. So a rule that may open `k` levels answers wherever at most `k` symbols are ahead.
The rules that stand behind such a symbol are looked at below `k`, those that start with it below
`k + 1`.
-/

namespace Modula

open Modula.Parser

/-- The calls of nested constructs answer below `k`, where those with a word of their own are called
at it. -/
class AnsweringCalls (k : Nat) (call : Call) : Prop where
  expression : Answers k (call .expression)
  statement : Answers k (call .statement)
  type : Answers k (call .type)
  procedure : AnswersAt (· = .kwProcedure) k (call .procedure)
  variantFields : AnswersAt (· = .kwCase) k (call .variantFields)

namespace Grammar

set_option synthInstance.maxSize 1000

variable {k : Nat}

instance {call : Call} [h : AnsweringCalls k call] : Answers k (call .expression) := h.expression

instance {call : Call} [h : AnsweringCalls k call] : Answers k (call .statement) := h.statement

instance {call : Call} [h : AnsweringCalls k call] : Answers k (call .type) := h.type

/-! ## Names and sequences -/

instance (w : Token) (rule : Parser Node) [Answers k rule] : Answers k (optionalAt w rule) := by
  unfold optionalAt
  infer_instance

instance (o : ParseOptions) (start closers : TokenSet) (item : Parser Node) (found : List Node)
    [Answers k item] : Answers k (semicolonRound o start closers item found) := by
  unfold semicolonRound
  infer_instance

instance (o : ParseOptions) (start closers : TokenSet) (item : Parser Node) [Answers k item] :
    Answers k (semicolonList o start closers item) := by
  unfold semicolonList
  infer_instance

/-! ## Expressions -/

section Expressions

variable {call : Call} [AnsweringCalls k call]

instance : Answers k (expressionList call) := by
  unfold expressionList
  infer_instance

instance : Answers k (valueComponent call) := by
  unfold valueComponent
  infer_instance

instance : Answers k (caseLabelList call) := by
  unfold caseLabelList
  infer_instance

theorem answers_actualParameters : AnswersAt (· = .lParen) (k + 1) (actualParameters call) :=
  .advance fun _ => inferInstance

instance (d : Node) : Answers (k + 1) (selectorRound call d) := by
  unfold selectorRound
  refine .token_bind fun t => ?_
  split
  · exact .of_answers inferInstance
  · exact .advance fun _ => inferInstance
  · exact .of_answers inferInstance
  · exact .of_answers inferInstance

instance : Answers (k + 1) (designator call) := by
  unfold designator
  infer_instance

instance : Answers (k + 1) (designatorOrCall call) := by
  unfold designatorOrCall
  refine .bind inferInstance fun d => .ifAt ?_ inferInstance
  exact answers_actualParameters.bind fun _ => inferInstance

instance : Answers (k + 1) (simpleFactor call) := by
  unfold simpleFactor
  refine .token_bind fun t => ?_
  split
  · exact .of_answers inferInstance
  · split
    · next ht =>
      subst ht
      exact .advance fun _ => inferInstance
    · split
      · next ht =>
        subst ht
        exact .advance fun _ => inferInstance
      · exact .of_answers inferInstance

instance : Answers (k + 1) (factor call) := by
  unfold factor
  infer_instance

instance : Answers (k + 1) (simpleTerm call) := by
  unfold simpleTerm
  infer_instance

instance (kind? : Token → Option Kind) (operand : Parser Node) (left : Node) [Answers k operand] :
    Answers k (operatorRound kind? operand left) := by
  unfold operatorRound
  refine .token_bind fun t => ?_
  split <;> exact .of_answers inferInstance

instance : Answers (k + 1) (term call) := by
  unfold term
  infer_instance

instance : Answers (k + 1) (signedTerm call) := by
  unfold signedTerm
  refine .token_bind fun t => ?_
  split <;> exact .of_answers inferInstance

instance : Answers (k + 1) (simpleExpression call) := by
  unfold simpleExpression
  infer_instance

instance : Answers (k + 1) (expression call) := by
  unfold expression
  refine .bind inferInstance fun _ => .token_bind fun t => ?_
  split <;> exact .of_answers inferInstance

end Expressions

/-! ## Types -/

section Types

variable (o : ParseOptions) {call : Call} [AnsweringCalls k call]

instance : Answers k (fields call) := by
  unfold fields
  infer_instance

instance : Answers k (fieldList o call) := by
  unfold fieldList
  refine .token_bind fun t => ?_
  dsimp only
  split
  · exact .of_answers inferInstance
  · split
    · next ht =>
      rw [ht.1]
      exact AnsweringCalls.variantFields
    · exact .of_answers inferInstance

instance : Answers k (fieldListSequence o call) := by
  unfold fieldListSequence
  have (n : Nat) := composed_missingItems (n := n) (.inr rfl)
  infer_instance

instance : Answers k (variant o call) := by
  unfold variant
  infer_instance

theorem answers_variantFieldList :
    AnswersAt (· = .kwCase) (k + 1) (variantFieldList o call) :=
  .advance fun _ => inferInstance

instance : Answers k (recordBody o call) := by
  unfold recordBody
  split <;> infer_instance

instance : Answers (k + 1) (typeDenoter o call) := by
  unfold typeDenoter
  refine .token_bind fun t => ?_
  split
  · exact .of_answers inferInstance
  · exact .advance fun _ => inferInstance
  · exact .of_answers inferInstance
  · exact .of_answers inferInstance
  · exact .advance fun _ => inferInstance
  · exact .advance fun _ => inferInstance
  · exact .advance fun _ => inferInstance
  · exact .of_answers inferInstance
  · exact .of_answers inferInstance

end Types

/-! ## Statements -/

section Statements

variable (o : ParseOptions) {call : Call} [AnsweringCalls k call]

instance : Answers k (statementSequence o call) := by
  unfold statementSequence
  have (n : Nat) := composed_missingItems (n := n) (.inl rfl)
  infer_instance

instance : Answers (k + 1) (assignmentOrCall call) := by
  unfold assignmentOrCall
  refine .bind inferInstance fun _ => .token_bind fun t => ?_
  split
  · exact .advance fun _ => inferInstance
  · exact answers_actualParameters.bind fun _ => inferInstance
  · exact .of_answers inferInstance

instance : Answers k (thenBranch o call) := by
  unfold thenBranch
  infer_instance

instance : Answers k (elseBranch o call) := by
  unfold elseBranch
  infer_instance

instance : Answers k (elsifBranch o call) := by
  unfold elsifBranch
  infer_instance

instance : Answers k (caseBranch o call) := by
  unfold caseBranch
  infer_instance

instance (found : List Node) : Answers k (caseRound o call found) := by
  unfold caseRound
  infer_instance

theorem answers_of_statementRule? {t : Token} {rule : Parser Node}
    (h : statementRule? o call t = some rule) : AnswersAt (· = t) (k + 1) rule := by
  unfold statementRule? at h
  split at h
  any_goals
    cases h
    exact .advance fun _ => inferInstance
  split at h
  · cases h
    exact .of_answers inferInstance
  · cases h

instance : Answers (k + 1) (statement o call) := by
  unfold statement
  refine .token_bind fun t => ?_
  split
  · next rule hr => exact (answers_of_statementRule? o hr).bind fun _ => inferInstance
  · exact .of_answers inferInstance

end Statements

/-! ## Declarations -/

section Declarations

variable (o : ParseOptions) {call : Call} [AnsweringCalls k call]

instance : Answers k (constantDefinition call) := by
  unfold constantDefinition
  infer_instance

instance (part : Part) : Answers k (typeDefinition call part) := by
  unfold typeDefinition
  infer_instance

instance : Answers k (variableDeclaration call) := by
  unfold variableDeclaration
  infer_instance

instance (item : Parser Node) [Answers k item] : Answers k (declarationSection item) := by
  unfold declarationSection
  infer_instance

theorem answers_procedureIn (part : Part) :
    AnswersAt (· = .kwProcedure) k (procedureIn o call part) := by
  cases part with
  | definitions => exact .of_answers (inferInstanceAs (Answers k (procedureDefinition o)))
  | declarations => exact AnsweringCalls.procedure

instance (part : Part) (found : List (List Node)) :
    Answers k (declarationRound o call part found) := by
  unfold declarationRound
  refine .token_bind fun t => ?_
  split
  · exact .of_answers inferInstance
  · exact .of_answers inferInstance
  · exact .of_answers inferInstance
  · exact (answers_procedureIn o part).bind fun _ => inferInstance
  · exact .of_answers inferInstance

instance (part : Part) : Answers k (declarationList o call part) := by
  unfold declarationList
  infer_instance

instance : Answers k (block o call) := by
  unfold block
  infer_instance

theorem answers_procedureDeclaration :
    AnswersAt (· = .kwProcedure) (k + 1) (procedureDeclaration o call) := by
  unfold procedureDeclaration procedureHeader
  rw [bind_assoc]
  exact .advance fun _ => inferInstance

end Declarations

/-! ## Nested constructs -/

/-- Every level may be opened behind a symbol of its own. -/
instance answeringCalls_nested (o : ParseOptions) (levels : Nat) :
    AnsweringCalls levels (nested o levels) := by
  induction levels with
  -- Without levels nothing is promised, as there is no place with fewer than zero symbols ahead.
  | zero => exact ⟨.zero _, .zero _, .zero _, .zero _, .zero _⟩
  | succ levels ih =>
    exact
      { expression := inferInstanceAs (Answers _ (expression (nested o levels)))
        statement := inferInstanceAs (Answers _ (statement o (nested o levels)))
        type := inferInstanceAs (Answers _ (typeDenoter o (nested o levels)))
        procedure := answers_procedureDeclaration o
        variantFields := answers_variantFieldList o }

instance (o : ParseOptions) : AnsweringCalls o.maxNesting (outermost o) :=
  answeringCalls_nested o o.maxNesting

/-! ## Compilation units -/

section Units

variable (o : ParseOptions)

instance (kind : Kind) : Answers o.maxNesting (programModule o kind) := by
  unfold programModule
  infer_instance

/-- A unit is read from its first word to its end if there are no more symbols than levels. -/
theorem answers_unitRule {kind : UnitKind} {t : Token} (h : t ∈ startOf kind) :
    AnswersAt (· = t) (o.maxNesting + 1) (unitRule o t) := by
  unfold unitRule
  split
  · exact .advance fun _ => inferInstance
  · exact .advance fun _ => inferInstance
  · next ht hi =>
    have hword : t = .kwModule := by
      revert ht hi h
      cases kind <;> cases t <;> decide
    subst hword
    unfold programModule moduleHeader
    rw [bind_assoc]
    exact .expect _ fun _ => inferInstance

end Units

end Grammar

end Modula
