import Modula.Proofs.Accurate
import Modula.Proofs.Outcome

/-!
# The rules of the grammar are accurate

Each rule reports at the next symbol, and only what is not there. Most rules are seen to be accurate
by looking for instances; the others are those that look at a token before they report it, and the
lists with semicolons, where the symbol that is reported may be the one just consumed.
-/

namespace Modula

open Modula.Parser

/-- The calls of nested constructs are accurate. -/
class AccurateCalls (v : Severity) (call : Call) : Prop where
  accurate : ∀ x, Accurate v (call x)

namespace Grammar

set_option synthInstance.maxSize 10000

variable {v : Severity}

instance (priority := low) {call : Call} [h : AccurateCalls v call] (x : Nested) :
    Accurate v (call x) := h.accurate x

/-! ## Names and sequences -/

instance (w : Token) (rule : Parser Node) [Accurate v rule] : Accurate v (optionalAt w rule) := by
  unfold optionalAt
  infer_instance

instance (s : TokenSet) : Accurate v (identList s) := by
  unfold identList
  infer_instance

instance (s : TokenSet) (parts : List Node) : Accurate v (qualidentRound s parts) := by
  unfold qualidentRound
  infer_instance

instance (s : TokenSet) : Accurate v (qualident s) := by
  unfold qualident
  infer_instance

theorem accurate_missingItems {c : Code} (h : c = .emptyStatements ∨ c = .emptyFields) :
    Accurate v (missingItems c) :=
  .of_exec fun _ => ⟨_, _, rfl, .step (.report (.missing c h))⟩

instance (o : ParseOptions) (start closers : TokenSet) (found : List Node) :
    Accurate o.errantSemicolon (behindItem o start closers found) := by
  refine .ifAt (fun p hp => ?_) fun p hp => ?_
  · -- a semicolon is consumed before it is known whether it is errant
    rw [exec_bind, exec_next, proceed_ok, exec_ifAtAny]
    split
    · exact .step (.errant hp)
    · exact .step (.advance p)
  · rw [exec_ifAtAny]
    split
    · exact Accurate.arrives_unexpected_of_eq_false (admits_token hp)
    · exact .refl p

instance (o : ParseOptions) (start closers : TokenSet) (item : Parser Node)
    [Accurate o.errantSemicolon item] (found : List Node) :
    Accurate o.errantSemicolon (semicolonRound o start closers item found) := by
  rw [semicolonRound_eq]
  infer_instance

instance (o : ParseOptions) (start closers : TokenSet) (item : Parser Node)
    [Accurate o.errantSemicolon item] :
    Accurate o.errantSemicolon (semicolonList o start closers item) := by
  unfold semicolonList
  infer_instance

/-! ## Expressions -/

section Expressions

variable {call : Call} [AccurateCalls v call]

instance : Accurate v (expressionList call) := by
  unfold expressionList
  infer_instance

instance : Accurate v (valueComponent call) := by
  unfold valueComponent
  infer_instance

instance : Accurate v (caseLabelList call) := by
  unfold caseLabelList
  infer_instance

instance : Accurate v (structuredValue call) := by
  unfold structuredValue
  infer_instance

instance : Accurate v (actualParameters call) := by
  unfold actualParameters
  infer_instance

instance (designator : Node) : Accurate v (selectorRound call designator) := by
  unfold selectorRound
  refine .token_bind fun t => ?_
  split <;> infer_instance

instance : Accurate v (designator call) := by
  unfold designator
  infer_instance

instance : Accurate v (designatorOrCall call) := by
  unfold designatorOrCall
  infer_instance

instance : Accurate v (parenthesized call) := by
  unfold parenthesized
  infer_instance

/-- Of what starts an expression, only a sign and `NOT` start no operand. -/
theorem operator_of_admits {t : Token} (hliteral : literalKind? t = none) (hbrace : t ≠ .lBrace)
    (hparen : t ≠ .lParen) (hident : t ∉ identStart)
    (h : (Expected.set expressionStart).admits t = true) : t ∈ tokens [.plus, .minus, .kwNot] := by
  have ht := admits_set.1 h
  clear h
  revert hliteral hbrace hparen hident ht
  cases t <;> decide

instance : Accurate v (simpleFactor call) := by
  refine ⟨fun p => ?_⟩
  rw [simpleFactor, exec_bind, exec_token, proceed_ok]
  split
  · exact Accurate.arrives p
  · next hliteral =>
    split
    · exact Accurate.arrives p
    · next hbrace =>
      split
      · exact Accurate.arrives p
      · next hparen =>
        split
        · exact Accurate.arrives p
        · next hident =>
          exact Accurate.arrives_unexpected fun h =>
            ⟨rfl, operator_of_admits hliteral hbrace hparen hident h⟩

instance : Accurate v (factor call) := by
  unfold factor
  infer_instance

instance : Accurate v (simpleTerm call) := by
  unfold simpleTerm
  infer_instance

instance (kind? : Token → Option Kind) (operand : Parser Node) [Accurate v operand] (left : Node) :
    Accurate v (operatorRound kind? operand left) := by
  unfold operatorRound
  refine .token_bind fun t => ?_
  split <;> infer_instance

instance : Accurate v (term call) := by
  unfold term
  infer_instance

instance : Accurate v (signedTerm call) := by
  unfold signedTerm
  refine .token_bind fun t => ?_
  split <;> infer_instance

instance : Accurate v (simpleExpression call) := by
  unfold simpleExpression
  infer_instance

instance : Accurate v (expression call) := by
  unfold expression
  refine .bind inferInstance fun left => .token_bind fun t => ?_
  split <;> infer_instance

end Expressions

/-! ## Types -/

section Types

instance : Accurate v enumBase := by
  unfold enumBase
  infer_instance

instance : Accurate v enumType := by
  unfold enumType
  infer_instance

instance : Accurate v aliasType := by
  unfold aliasType
  infer_instance

instance : Accurate v setType := by
  unfold setType
  infer_instance

instance (s : TokenSet) : Accurate v (parameterType s) := by
  unfold parameterType
  infer_instance

instance (s : TokenSet) : Accurate v (formalType s) := by
  unfold formalType
  refine .token_bind fun t => ?_
  split <;> infer_instance

instance : Accurate v formalTypeList := by
  unfold formalTypeList
  infer_instance

instance : Accurate v procedureType := by
  unfold procedureType
  infer_instance

instance : Accurate v recordBase := by
  unfold recordBase
  infer_instance

variable {o : ParseOptions} {call : Call} [AccurateCalls o.errantSemicolon call]

instance : Accurate o.errantSemicolon (subrangeType call) := by
  unfold subrangeType
  infer_instance

instance : Accurate o.errantSemicolon (arrayType call) := by
  unfold arrayType
  infer_instance

instance : Accurate o.errantSemicolon (pointerType call) := by
  unfold pointerType
  infer_instance

instance : Accurate o.errantSemicolon (fields call) := by
  unfold fields
  infer_instance

instance : Accurate o.errantSemicolon (fieldList o call) := by
  unfold fieldList
  exact .token_bind fun t => inferInstance

instance : Accurate o.errantSemicolon (fieldListSequence o call) := by
  unfold fieldListSequence
  have := accurate_missingItems (v := o.errantSemicolon) (c := .emptyFields) (.inr rfl)
  infer_instance

instance : Accurate o.errantSemicolon (variant o call) := by
  unfold variant
  infer_instance

instance : Accurate o.errantSemicolon (variantFieldList o call) := by
  unfold variantFieldList
  infer_instance

instance : Accurate o.errantSemicolon (recordBody o call) := by
  unfold recordBody
  split <;> infer_instance

instance : Accurate o.errantSemicolon (recordType o call) := by
  unfold recordType
  infer_instance

instance : Accurate o.errantSemicolon (typeDenoter o call) := by
  unfold typeDenoter
  refine .token_bind fun t => ?_
  split <;> infer_instance

end Types

/-! ## Statements -/

section Statements

variable {o : ParseOptions} {call : Call} [AccurateCalls o.errantSemicolon call]

instance : Accurate o.errantSemicolon (statementSequence o call) := by
  unfold statementSequence
  have := accurate_missingItems (v := o.errantSemicolon) (c := .emptyStatements) (.inl rfl)
  infer_instance

instance : Accurate o.errantSemicolon (assignmentOrCall call) := by
  unfold assignmentOrCall
  refine .bind inferInstance fun designator => .token_bind fun t => ?_
  split <;> infer_instance

instance : Accurate o.errantSemicolon (thenBranch o call) := by
  unfold thenBranch
  infer_instance

instance : Accurate o.errantSemicolon (elseBranch o call) := by
  unfold elseBranch
  infer_instance

instance : Accurate o.errantSemicolon (elsifBranch o call) := by
  unfold elsifBranch
  infer_instance

instance : Accurate o.errantSemicolon (ifStatement o call) := by
  unfold ifStatement
  infer_instance

instance : Accurate o.errantSemicolon (caseBranch o call) := by
  unfold caseBranch
  infer_instance

instance (found : List Node) : Accurate o.errantSemicolon (caseRound o call found) := by
  unfold caseRound
  infer_instance

instance : Accurate o.errantSemicolon (caseStatement o call) := by
  unfold caseStatement
  infer_instance

instance : Accurate o.errantSemicolon (loopStatement o call) := by
  unfold loopStatement
  infer_instance

instance : Accurate o.errantSemicolon (whileStatement o call) := by
  unfold whileStatement
  infer_instance

instance : Accurate o.errantSemicolon (repeatStatement o call) := by
  unfold repeatStatement
  infer_instance

instance : Accurate o.errantSemicolon (forStatement o call) := by
  unfold forStatement
  infer_instance

instance : Accurate o.errantSemicolon (returnStatement call) := by
  unfold returnStatement
  infer_instance

instance : Accurate o.errantSemicolon exitStatement := by
  unfold exitStatement
  infer_instance

theorem accurate_of_statementRule? {t : Token} {rule : Parser Node}
    (h : statementRule? o call t = some rule) : Accurate o.errantSemicolon rule := by
  unfold statementRule? at h
  split at h
  any_goals
    cases h
    infer_instance
  split at h
  · cases h
    infer_instance
  · cases h

instance : Accurate o.errantSemicolon (statement o call) := by
  unfold statement
  refine .token_bind fun t => ?_
  split
  · next rule hrule =>
    have := accurate_of_statementRule? hrule
    infer_instance
  · infer_instance

end Statements

/-! ## Declarations -/

section Declarations

instance : Accurate v parameterMode := by
  unfold parameterMode
  refine .token_bind fun t => ?_
  split <;> infer_instance

instance : Accurate v formalParameters := by
  unfold formalParameters
  infer_instance

instance : Accurate v countDeclaration := by
  unfold countDeclaration
  infer_instance

instance : Accurate v countProcedure := by
  unfold countProcedure
  infer_instance

variable {o : ParseOptions}

instance : Accurate o.errantSemicolon (formalParameterList o) := by
  unfold formalParameterList
  infer_instance

instance : Accurate o.errantSemicolon (procedureHeader o) := by
  unfold procedureHeader
  infer_instance

instance : Accurate o.errantSemicolon (procedureDefinition o) := by
  unfold procedureDefinition
  infer_instance

variable {call : Call} [AccurateCalls o.errantSemicolon call]

instance : Accurate o.errantSemicolon (constantDefinition call) := by
  unfold constantDefinition
  infer_instance

/-- An opaque type is reported where its word stands. -/
theorem arrives_opaqueType (part : Part) {p : Progress} (h : p.lookahead.token = .kwOpaque) :
    Arrives v p ((opaqueType part).exec p) := by
  cases part with
  | definitions => exact .step (.advance p)
  | declarations => exact .trans (.step (.report (.isOpaque h))) (.step (.advance _))

instance (part : Part) : Accurate o.errantSemicolon (typeDefinition call part) := by
  unfold typeDefinition
  have : Accurate o.errantSemicolon (ifAt .kwOpaque (opaqueType part) (call .type)) :=
    .ifAt (fun p hp => arrives_opaqueType part hp) fun p _ => Accurate.arrives p
  infer_instance

instance : Accurate o.errantSemicolon (variableDeclaration call) := by
  unfold variableDeclaration
  infer_instance

instance (item : Parser Node) [Accurate v item] : Accurate v (declarationSection item) := by
  unfold declarationSection
  infer_instance

instance (part : Part) : Accurate o.errantSemicolon (procedureIn o call part) := by
  cases part with
  | definitions => exact inferInstanceAs (Accurate _ (procedureDefinition o))
  | declarations => exact AccurateCalls.accurate .procedure

instance (part : Part) (found : List (List Node)) :
    Accurate o.errantSemicolon (declarationRound o call part found) := by
  unfold declarationRound
  refine .token_bind fun t => ?_
  split <;> infer_instance

instance (part : Part) : Accurate o.errantSemicolon (declarationList o call part) := by
  unfold declarationList
  infer_instance

instance : Accurate o.errantSemicolon (block o call) := by
  unfold block
  infer_instance

instance : Accurate o.errantSemicolon (procedureDeclaration o call) := by
  unfold procedureDeclaration
  infer_instance

end Declarations

/-! ## Nested constructs -/

section Units

variable {o : ParseOptions}

instance {call : Call} [AccurateCalls o.errantSemicolon call] (x : Nested) :
    Accurate o.errantSemicolon (nestedRule o call x) := by
  cases x with
  | expression => exact inferInstanceAs (Accurate _ (expression call))
  | statement => exact inferInstanceAs (Accurate _ (statement o call))
  | type => exact inferInstanceAs (Accurate _ (typeDenoter o call))
  | procedure => exact inferInstanceAs (Accurate _ (procedureDeclaration o call))
  | variantFields => exact inferInstanceAs (Accurate _ (variantFieldList o call))

instance (levels : Nat) : AccurateCalls o.errantSemicolon (nested o levels) := by
  induction levels with
  | zero => exact ⟨fun x => ⟨fun p => ⟨p, .refl p, rfl⟩⟩⟩
  | succ levels ih =>
    exact ⟨fun x => inferInstanceAs (Accurate _ (nestedRule o (nested o levels) x))⟩

instance : AccurateCalls o.errantSemicolon (outermost o) :=
  inferInstanceAs (AccurateCalls _ (nested o o.maxNesting))

/-! ## Compilation units -/

instance : Accurate v unqualifiedImport := by
  unfold unqualifiedImport
  infer_instance

instance : Accurate v qualifiedImport := by
  unfold qualifiedImport
  infer_instance

instance : Accurate v importClause := by
  unfold importClause
  infer_instance

instance : Accurate v importList := by
  unfold importList
  infer_instance

instance : Accurate v moduleHeader := by
  unfold moduleHeader
  infer_instance

instance (name : Node) : Accurate v (unitClosing name) := by
  unfold unitClosing
  infer_instance

instance : Accurate o.errantSemicolon (definitionModule o) := by
  unfold definitionModule
  infer_instance

instance (kind : Kind) : Accurate o.errantSemicolon (programModule o kind) := by
  unfold programModule
  infer_instance

instance (t : Token) : Accurate o.errantSemicolon (unitRule o t) := by
  unfold unitRule
  split <;> infer_instance

/-- What holds at the start of a unit and is kept by accurate steps holds wherever its reading ends,
if it is kept by the two reports behind which nothing is read. -/
theorem compilationUnit_invariant (kind : UnitKind) {p : Progress} {motive : Progress → Prop}
    (hp : motive p)
    (hstep : ∀ r s : Progress, r.Move o.errantSemicolon s → motive r → motive s)
    (hdeep : ∀ r : Progress, motive r → motive (r.report (faultAt .nestingTooDeep r.lookahead)))
    (hstart : p.lookahead.token ∉ startOf kind → motive (p.report
      { faultBy .invalidStart p.lookahead with expected := Expected.set (startOf kind) })) :
    motive ((compilationUnit o kind).exec p).2 := by
  by_cases h : p.lookahead.token ∈ startOf kind
  · have harrives : Arrives o.errantSemicolon p ((unitRule o p.lookahead.token).exec p) :=
      Accurate.arrives p
    rw [exec_compilationUnit_of_mem h]
    rcases hx : (unitRule o p.lookahead.token).exec p with ⟨(f | _) | tree, q⟩
    · rw [hx] at harrives
      obtain ⟨r, hr, rfl⟩ := harrives
      exact hdeep r (hr.invariant hstep hp)
    · rw [hx] at harrives
      exact Progress.Moves.invariant harrives hstep hp
    · rw [hx] at harrives
      exact Progress.Moves.invariant harrives hstep hp
  · rw [exec_compilationUnit_of_not_mem h]
    exact hstart h

end Units

end Grammar

/-! ## What is reported -/

namespace Progress

/-- What has been recorded has a property, and only lexical faults are still to come into view. -/
structure Records (P : Diagnostic → Prop) (p : Progress) : Prop where
  recorded : ∀ d ∈ p.queue.toList, P d
  ahead : ∀ i ∈ p.ahead, OnlyLexical i.reports

variable {P : Diagnostic → Prop} {p : Progress}

theorem Records.report (h : p.Records P) {d : Diagnostic} (hd : P d) : (p.report d).Records P := by
  refine ⟨fun e he => ?_, h.ahead⟩
  rw [Progress.report, Queue.toList_push] at he
  rcases List.mem_append.1 he with he | he
  · exact h.recorded e he
  · rw [List.mem_singleton.1 he]
    exact hd

theorem Records.advance (h : p.Records P) (hlexical : ∀ d : Diagnostic, d.phase = .lexical → P d) :
    p.advance.Records P := by
  obtain ⟨hrecorded, hahead⟩ := h
  unfold Progress.advance
  split
  · exact ⟨hrecorded, hahead⟩
  · next i ahead hi =>
    rw [hi] at hahead
    obtain ⟨hlex, hlater⟩ := List.forall_mem_cons.1 hahead
    refine ⟨fun d hd => ?_, hlater⟩
    rw [view, Queue.toList_append] at hd
    rcases List.mem_append.1 hd with hd | hd
    · exact hrecorded d hd
    · exact hlexical d (hlex d hd)

theorem records_startOfUnit (o : LexicalOptions) (text : String)
    (hlexical : ∀ d : Diagnostic, d.phase = .lexical → P d) : (startOfUnit o text).Records P := by
  refine ⟨fun d hd => hlexical d (onlyLexical_reports o text d ?_),
    (passing_startOfUnit o text).ahead⟩
  rw [← foreseen_startOfUnit]
  exact List.mem_append_left _ hd

end Progress

/-- What holds of lexical faults, and of every fault as an accurate rule reports it, holds of all
that a parse reports. -/
theorem parseReports_induction (o : ParseOptions) (kind : UnitKind) (text : String)
    {motive : Diagnostic → Prop} (hlexical : ∀ d : Diagnostic, d.phase = .lexical → motive d)
    (hreport : ∀ (p : Progress) (d : Diagnostic), p.Truthful d → motive d)
    (herrant : ∀ p : Progress, p.lookahead.token = .semicolon →
      motive (p.errant o.errantSemicolon))
    (hdeep : ∀ s : Symbol, motive (faultAt .nestingTooDeep s))
    (hstart : ∀ s : Symbol, s.token ∉ Grammar.startOf kind → motive
      { faultBy .invalidStart s with expected := Expected.set (Grammar.startOf kind) }) :
    ∀ d ∈ parseReports o kind text, motive d := by
  rw [parseReports_eq]
  have hp : (startOfUnit o.lexical text).Records motive :=
    Progress.records_startOfUnit o.lexical text hlexical
  refine (Grammar.compilationUnit_invariant kind hp ?_ ?_ ?_).recorded
  · intro r s hrs hr
    cases hrs with
    | advance => exact hr.advance hlexical
    | report hd => exact hr.report (hreport r _ hd)
    | errant ht => exact (hr.advance hlexical).report (herrant r ht)
    | count => exact ⟨hr.recorded, hr.ahead⟩
  · exact fun r hr => hr.report (hdeep r.lookahead)
  · exact fun hs => hp.report (hstart _ hs)

end Modula
