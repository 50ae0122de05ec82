import Modula.Proofs.Alike
import Modula.Proofs.Outcome

/-!
# The rules of the grammar are alike

Each rule is alike to itself with other calls, if these are alike. The tokens are looked at in their
normal forms only, spellings only where identifiers close something, and the options of a parse only
for what they say of records and of errant semicolons.
-/

namespace Modula

open Modula.Parser

/-- The options mean the same grammar, but maybe other limits. -/
structure ParseOptions.SameGrammar (o o' : ParseOptions) : Prop where
  errantSemicolon : o.errantSemicolon = o'.errantSemicolon
  records : o.records = o'.records

/-- The options mean the same records, and errant semicolons are reported alike. -/
class AlikeOptions (L : Likeness) (o o' : ParseOptions) : Prop where
  records : o.records = o'.records
  errant : ∀ s s', L.symbol s s' →
    Alike L (Grammar.reportErrant o s) (Grammar.reportErrant o' s')

theorem records_eq_of_alike (L : Likeness) (o o' : ParseOptions) [h : AlikeOptions L o o'] :
    o.records = o'.records := h.records

theorem ParseOptions.SameGrammar.alike {L : Likeness} {o o' : ParseOptions}
    (h : o.SameGrammar o') : AlikeOptions L o o' := by
  refine ⟨h.records, fun s s' hs => ?_⟩
  refine .of_exec fun p p' hp => ⟨_, _, _, _, rfl, rfl, rfl, L.report hp ?_⟩
  have hat := Likeness.faultAt_corresponds .errantSemicolon hs
  exact ⟨rfl, h.errantSemicolon, rfl, hat.place, .some ⟨_, _, L.lookahead hp, rfl, rfl⟩, .none⟩

/-- The calls of nested constructs are alike. -/
class AlikeCalls (L : Likeness) (call call' : Call) : Prop where
  alike : ∀ x, Alike L (call x) (call' x)

namespace Grammar

set_option synthInstance.maxSize 10000

variable {L : Likeness}

instance (priority := low) {call call' : Call} [h : AlikeCalls L call call'] (x : Nested) :
    Alike L (call x) (call' x) := h.alike x

/-! ## Names and sequences -/

instance (w : Token) [IsTrue w.isPlain] (rule rule' : Parser Node) [Alike L rule rule']
    [Composed L.limit rule'] : Alike L (optionalAt w rule) (optionalAt w rule') := by
  unfold optionalAt
  infer_instance

instance (s : TokenSet) [s.Uniform] : Alike L (identList s) (identList s) := by
  unfold identList
  infer_instance

instance (s : TokenSet) [s.Uniform] (parts parts' : List Node) [Same L parts parts'] :
    Alike L (qualidentRound s parts) (qualidentRound s parts') := by
  unfold qualidentRound
  infer_instance

instance (s : TokenSet) [s.Uniform] : Alike L (qualident s) (qualident s) := by
  unfold qualident
  infer_instance

instance {o o' : ParseOptions} [ho : AlikeOptions L o o'] (s s' : Symbol) [h : Same L s s'] :
    Alike L (reportErrant o s) (reportErrant o' s') := ho.errant s s' h.rel

theorem alike_missingItems (code : Code) : Alike L (missingItems code) (missingItems code) :=
  .of_exec fun _ _ hp => ⟨_, _, _, _, rfl, rfl, Tree.corresponds_empty,
    L.report hp (Likeness.faultBy_corresponds code (L.lookahead hp))⟩

instance {o o' : ParseOptions} [AlikeOptions L o o'] (start closers : TokenSet) [start.Uniform]
    [closers.Uniform]
    (item item' : Parser Node) [Alike L item item'] [Composed L.limit item']
    (found found' : List Node) [Same L found found'] :
    Alike L (semicolonRound o start closers item found)
      (semicolonRound o' start closers item' found') := by
  unfold semicolonRound
  infer_instance

instance {o o' : ParseOptions} [AlikeOptions L o o'] (start closers : TokenSet) [start.Uniform]
    [closers.Uniform]
    (item item' : Parser Node) [Alike L item item'] [Composed L.limit item'] :
    Alike L (semicolonList o start closers item) (semicolonList o' start closers item') := by
  unfold semicolonList
  infer_instance

/-! ## Expressions -/

section Expressions

variable {call call' : Call} [AlikeCalls L call call'] [Reliable L.limit call']

instance : Alike L (expressionList call) (expressionList call') := by
  unfold expressionList
  infer_instance

instance : Alike L (valueComponent call) (valueComponent call') := by
  unfold valueComponent
  infer_instance

instance : Alike L (caseLabelList call) (caseLabelList call') := by
  unfold caseLabelList
  infer_instance

instance : Alike L (structuredValue call) (structuredValue call') := by
  unfold structuredValue
  infer_instance

instance : Alike L (actualParameters call) (actualParameters call') := by
  unfold actualParameters
  infer_instance

instance (d d' : Node) [Same L d d'] : Alike L (selectorRound call d) (selectorRound call' d') := by
  unfold selectorRound
  refine .token_bind fun t => ?_
  split <;> infer_instance

instance : Alike L (designator call) (designator call') := by
  unfold designator
  infer_instance

instance : Alike L (designatorOrCall call) (designatorOrCall call') := by
  unfold designatorOrCall
  infer_instance

instance : Alike L (parenthesized call) (parenthesized call') := by
  unfold parenthesized
  infer_instance

instance : Alike L (simpleFactor call) (simpleFactor call') := by
  unfold simpleFactor
  refine .token_bind fun t => ?_
  split <;> infer_instance

instance : Alike L (factor call) (factor call') := by
  unfold factor
  infer_instance

instance : Alike L (simpleTerm call) (simpleTerm call') := by
  unfold simpleTerm
  infer_instance

theorem alike_operatorRound {kind? : Token → Option Kind} {operand operand' : Parser Node}
    (ho : Alike L operand operand') (hc : Composed L.limit operand') (x : Pair L Node)
    (hk : Token.Indistinct kind? := by exact ⟨rfl, rfl, rfl, rfl⟩) :
    Alike L (operatorRound kind? operand x.left) (operatorRound kind? operand' x.right) := by
  unfold operatorRound
  refine .token_bind (fun t => ?_) ?_
  · split <;> infer_instance
  · exact ⟨by rw [hk.foreignIdent], by rw [hk.malformedIdent], by rw [hk.malformedNumber],
      by rw [hk.malformedString]⟩

instance : Alike L (term call) (term call') := by
  unfold term
  have (x : Pair L Node) :
      Alike L (operatorRound multiplicativeKind? (simpleTerm call) x.left)
        (operatorRound multiplicativeKind? (simpleTerm call') x.right) :=
    alike_operatorRound inferInstance inferInstance x
  infer_instance

instance : Alike L (signedTerm call) (signedTerm call') := by
  unfold signedTerm
  refine .token_bind fun t => ?_
  split <;> infer_instance

instance : Alike L (simpleExpression call) (simpleExpression call') := by
  unfold simpleExpression
  have (x : Pair L Node) :
      Alike L (operatorRound additiveKind? (term call) x.left)
        (operatorRound additiveKind? (term call') x.right) :=
    alike_operatorRound inferInstance inferInstance x
  infer_instance

instance : Alike L (expression call) (expression call') := by
  unfold expression
  refine .bind inferInstance (fun x => .token_bind fun t => ?_) fun a' => ?_
  · split <;> infer_instance
  · refine .bind token _ inferInstance fun t => ?_
    split <;> infer_instance

end Expressions

/-! ## Types -/

section Types

instance : Alike L enumBase enumBase := by
  unfold enumBase
  infer_instance

instance : Alike L enumType enumType := by
  unfold enumType
  infer_instance

instance : Alike L aliasType aliasType := by
  unfold aliasType
  infer_instance

instance : Alike L setType setType := by
  unfold setType
  infer_instance

instance (s : TokenSet) [s.Uniform] : Alike L (parameterType s) (parameterType s) := by
  unfold parameterType
  infer_instance

instance (s : TokenSet) [s.Uniform] : Alike L (formalType s) (formalType s) := by
  unfold formalType
  refine .token_bind fun t => ?_
  split <;> infer_instance

instance : Alike L formalTypeList formalTypeList := by
  unfold formalTypeList
  infer_instance

instance : Alike L procedureType procedureType := by
  unfold procedureType
  infer_instance

variable {call call' : Call} [AlikeCalls L call call'] [Reliable L.limit call']
  {o o' : ParseOptions} [AlikeOptions L o o']

instance : Alike L (subrangeType call) (subrangeType call') := by
  unfold subrangeType
  infer_instance

instance : Alike L (arrayType call) (arrayType call') := by
  unfold arrayType
  infer_instance

instance : Alike L (pointerType call) (pointerType call') := by
  unfold pointerType
  infer_instance

instance : Alike L (fields call) (fields call') := by
  unfold fields
  infer_instance

instance : Alike L (fieldList o call) (fieldList o' call') := by
  unfold fieldList
  rw [records_eq_of_alike L o o']
  exact .token_bind fun t => inferInstance

instance : Alike L (fieldListSequence o call) (fieldListSequence o' call') := by
  unfold fieldListSequence
  rw [records_eq_of_alike L o o']
  have := alike_missingItems (L := L) .emptyFields
  infer_instance

instance : Alike L (variant o call) (variant o' call') := by
  unfold variant
  infer_instance

instance : Alike L (variantFieldList o call) (variantFieldList o' call') := by
  unfold variantFieldList
  infer_instance

instance : Alike L recordBase recordBase := by
  unfold recordBase
  infer_instance

instance : Alike L (recordBody o call) (recordBody o' call') := by
  unfold recordBody
  rw [records_eq_of_alike L o o']
  split <;> infer_instance

instance : Alike L (recordType o call) (recordType o' call') := by
  unfold recordType
  infer_instance

instance : Alike L (typeDenoter o call) (typeDenoter o' call') := by
  unfold typeDenoter
  refine .token_bind fun t => ?_
  split <;> infer_instance

end Types

/-! ## Statements -/

section Statements

variable {call call' : Call} [AlikeCalls L call call'] [Reliable L.limit call']
  {o o' : ParseOptions} [AlikeOptions L o o']

instance : Alike L (statementSequence o call) (statementSequence o' call') := by
  unfold statementSequence
  have := alike_missingItems (L := L) .emptyStatements
  infer_instance

instance : Alike L (assignmentOrCall call) (assignmentOrCall call') := by
  unfold assignmentOrCall
  refine .bind inferInstance (fun x => .token_bind fun t => ?_) fun a' => ?_
  · split <;> infer_instance
  · refine .bind token _ inferInstance fun t => ?_
    split <;> infer_instance

instance : Alike L (thenBranch o call) (thenBranch o' call') := by
  unfold thenBranch
  infer_instance

instance : Alike L (elseBranch o call) (elseBranch o' call') := by
  unfold elseBranch
  infer_instance

instance : Alike L (elsifBranch o call) (elsifBranch o' call') := by
  unfold elsifBranch
  infer_instance

instance : Alike L (ifStatement o call) (ifStatement o' call') := by
  unfold ifStatement
  infer_instance

instance : Alike L (caseBranch o call) (caseBranch o' call') := by
  unfold caseBranch
  infer_instance

instance (found found' : List Node) [Same L found found'] :
    Alike L (caseRound o call found) (caseRound o' call' found') := by
  unfold caseRound
  infer_instance

instance : Alike L (caseStatement o call) (caseStatement o' call') := by
  unfold caseStatement
  infer_instance

instance : Alike L (loopStatement o call) (loopStatement o' call') := by
  unfold loopStatement
  infer_instance

instance : Alike L (whileStatement o call) (whileStatement o' call') := by
  unfold whileStatement
  infer_instance

instance : Alike L (repeatStatement o call) (repeatStatement o' call') := by
  unfold repeatStatement
  infer_instance

instance : Alike L (forStatement o call) (forStatement o' call') := by
  unfold forStatement
  infer_instance

instance : Alike L (returnStatement call) (returnStatement call') := by
  unfold returnStatement
  infer_instance

instance : Alike L exitStatement exitStatement := by
  unfold exitStatement
  infer_instance

theorem alike_statementRule? (t : Token) :
    Option.Rel (Alike L) (statementRule? o call t) (statementRule? o' call' t) := by
  unfold statementRule?
  split
  any_goals exact .some inferInstance
  split
  · exact .some inferInstance
  · exact .none

theorem tallies_statements :
    Statistics.Tallies fun s => { s with statements := s.statements + 1 } := ⟨0, 0, 1, rfl⟩

instance : Alike L (statement o call) (statement o' call') := by
  have := Alike.count (L := L) tallies_statements
  unfold statement
  refine .token_bind fun t => ?_
  have hrule : Option.Rel (Alike L) (statementRule? o call t) (statementRule? o' call' t) :=
    alike_statementRule? t
  cases hr : statementRule? o call t with
  | none =>
    rw [hr] at hrule
    cases hr' : statementRule? o' call' t with
    | some rule' => rw [hr'] at hrule; cases hrule
    | none => infer_instance
  | some rule =>
    rw [hr] at hrule
    cases hr' : statementRule? o' call' t with
    | none => rw [hr'] at hrule; cases hrule
    | some rule' =>
      rw [hr'] at hrule
      cases hrule with
      | some hrule =>
        have := (composed_of_statementRule? (n := L.limit) hr').1
        infer_instance

end Statements

/-! ## Declarations -/

section Declarations

instance : Alike L parameterMode parameterMode := by
  unfold parameterMode
  refine .token_bind fun t => ?_
  split <;> infer_instance

instance : Alike L formalParameters formalParameters := by
  unfold formalParameters
  infer_instance

variable {o o' : ParseOptions} [AlikeOptions L o o']

instance : Alike L (formalParameterList o) (formalParameterList o') := by
  unfold formalParameterList
  infer_instance

instance : Comparable Header where
  rel L h h' := L.Name h.name h'.name ∧ h.parameters.Corresponds L.symbol h'.parameters ∧
    h.result.Corresponds L.symbol h'.result

instance (x : Pair L Header) : SameOpening L x.left.name.value? x.right.name.value? :=
  x.rel.1.opening

instance (x : Pair L Header) : Same L x.left.name x.right.name := ⟨x.rel.1.corresponds⟩

instance (x : Pair L Header) : Same L x.left.parameters x.right.parameters := ⟨x.rel.2.1⟩

instance (x : Pair L Header) : Same L x.left.result x.right.result := ⟨x.rel.2.2⟩

/-- The name of a header is an identifier, or it was missed in both runs. -/
instance : Alike L (procedureHeader o) (procedureHeader o') := by
  unfold procedureHeader
  refine .bind inferInstance (fun _ => ⟨?_⟩) fun _ => inferInstance
  refine (Alike.ident_name _).bind (fun name name' hname => ?_) fun _ => inferInstance
  refine (Alike.bind inferInstance (fun parameters => ?_) fun _ => inferInstance).by_rel
  refine .bind inferInstance (fun result => ⟨.pure ?_⟩) fun _ => inferInstance
  exact ⟨hname, parameters.rel, result.rel⟩

theorem tallies_declarations :
    Statistics.Tallies fun s => { s with declarations := s.declarations + 1 } := ⟨1, 0, 0, rfl⟩

theorem tallies_procedures :
    Statistics.Tallies fun s =>
      { s with procedures := s.procedures + 1, declarations := s.declarations + 1 } :=
  ⟨1, 1, 0, rfl⟩

instance : Alike L countDeclaration countDeclaration := .count tallies_declarations

instance : Alike L countProcedure countProcedure := .count tallies_procedures

instance : Alike L (procedureDefinition o) (procedureDefinition o') := by
  unfold procedureDefinition
  infer_instance

variable {call call' : Call} [AlikeCalls L call call'] [Reliable L.limit call']

instance : Alike L (constantDefinition call) (constantDefinition call') := by
  unfold constantDefinition
  infer_instance

instance (part : Part) : Alike L (opaqueType part) (opaqueType part) := by
  cases part with
  | definitions =>
    exact .of_exec fun _ _ hp =>
      ⟨_, _, _, _, rfl, rfl, Tree.corresponds_branch.2 ⟨rfl, .nil⟩, L.advance hp⟩
  | declarations =>
    exact .of_exec fun _ _ hp =>
      ⟨_, _, _, _, rfl, rfl, Tree.corresponds_branch.2 ⟨rfl, .nil⟩,
        L.advance (L.report hp (Likeness.faultAt_corresponds _ (L.lookahead hp)))⟩

instance (part : Part) : Alike L (typeDefinition call part) (typeDefinition call' part) := by
  unfold typeDefinition
  infer_instance

instance : Alike L (variableDeclaration call) (variableDeclaration call') := by
  unfold variableDeclaration
  infer_instance

theorem alike_declarationSection (item : Parser Node) {item' : Parser Node} [Alike L item item']
    [Composed L.limit item'] (hc : Consumes (· ∈ identStart) item') :
    Alike L (declarationSection item) (declarationSection item') := by
  unfold declarationSection
  have : Composed L.limit (whileAtAny identStart do
      let node ← item'
      expect .semicolon behindDeclaredItem
      return node) :=
    .whileAtAny inferInstance (hc.bind (n := L.limit) fun _ => inferInstance)
  infer_instance

instance (part : Part) : Alike L (procedureIn o call part) (procedureIn o' call' part) := by
  cases part with
  | definitions => exact inferInstanceAs (Alike L (procedureDefinition o) (procedureDefinition o'))
  | declarations => exact AlikeCalls.alike .procedure

instance (part : Part) (found found' : List (List Node)) [Same L found found'] :
    Alike L (declarationRound o call part found) (declarationRound o' call' part found') := by
  unfold declarationRound
  have := alike_declarationSection (L := L) (constantDefinition call)
    (consumes_constantDefinition L.limit call')
  have := alike_declarationSection (L := L) (typeDefinition call part)
    (consumes_typeDefinition L.limit call' part)
  have := alike_declarationSection (L := L) (variableDeclaration call)
    (consumes_variableDeclaration L.limit call')
  have := (composed_constantSection L.limit call').1
  have := (composed_typeSection L.limit call' part).1
  have := (composed_variableSection L.limit call').1
  refine .token_bind fun t => ?_
  split <;> infer_instance

instance (part : Part) : Alike L (declarationList o call part) (declarationList o' call' part) := by
  unfold declarationList
  infer_instance

instance : Alike L (block o call) (block o' call') := by
  unfold block
  infer_instance

instance : Alike L (procedureDeclaration o call) (procedureDeclaration o' call') := by
  unfold procedureDeclaration
  infer_instance

end Declarations

/-! ## Nested constructs -/

section Nesting

variable {o o' : ParseOptions} [AlikeOptions L o o']

theorem alike_nestedRule {call call' : Call} [AlikeCalls L call call'] [Reliable L.limit call']
    (x : Nested) : Alike L (nestedRule o call x) (nestedRule o' call' x) := by
  cases x with
  | expression => exact inferInstanceAs (Alike L (expression call) (expression call'))
  | statement => exact inferInstanceAs (Alike L (statement o call) (statement o' call'))
  | type => exact inferInstanceAs (Alike L (typeDenoter o call) (typeDenoter o' call'))
  | procedure =>
    exact inferInstanceAs (Alike L (procedureDeclaration o call) (procedureDeclaration o' call'))
  | variantFields =>
    exact inferInstanceAs (Alike L (variantFieldList o call) (variantFieldList o' call'))

/-- The second run may open more levels than the first one. It is enough that calls are alike where
no level is left for the first one. -/
theorem alikeCalls_nested (hlimit : L.limit = o'.maxNesting) {excess : Nat}
    (hbase : ∀ x, Alike L (nested o 0 x) (nested o' excess x)) (levels : Nat) :
    AlikeCalls L (nested o levels) (nested o' (excess + levels)) := by
  -- The excess is the same on every level, so that both runs go one level down together.
  induction levels with
  | zero => exact ⟨hbase⟩
  | succ levels ih =>
    have : Reliable L.limit (nested o' (excess + levels)) := hlimit ▸ inferInstance
    refine ⟨fun x => ?_⟩
    change Alike L (nestedRule o (nested o levels) x)
      (nestedRule o' (nested o' (excess + levels)) x)
    exact alike_nestedRule x

end Nesting

/-! ## Compilation units -/

section Units

instance : Alike L unqualifiedImport unqualifiedImport := by
  unfold unqualifiedImport
  infer_instance

instance : Alike L qualifiedImport qualifiedImport := by
  unfold qualifiedImport
  infer_instance

instance : Alike L importClause importClause := by
  unfold importClause
  infer_instance

instance : Alike L importList importList := by
  unfold importList
  infer_instance

theorem moduleHeader_name : AlikeBy L L.Name moduleHeader moduleHeader := by
  unfold moduleHeader
  have hword : Alike L (expect .kwModule behindModuleWord) (expect .kwModule behindModuleWord) :=
    inferInstance
  have hsemicolon : Alike L (expect .semicolon importFollow) (expect .semicolon importFollow) :=
    inferInstance
  refine hword.by_rel.bind (fun _ _ _ => ?_) fun _ => inferInstance
  refine (Alike.ident_name _).bind (fun name name' hname => ?_) fun _ => inferInstance
  exact hsemicolon.by_rel.bind (fun _ _ _ => .pure hname) fun _ => inferInstance

theorem alike_unitClosing {name name' : Node} (h : L.Name name name') :
    Alike L (unitClosing name) (unitClosing name') := by
  have := h.opening
  unfold unitClosing
  infer_instance

variable {o o' : ParseOptions} [AlikeOptions L o o'] [AlikeCalls L (outermost o) (outermost o')]
  [Reliable L.limit (outermost o')]

/-- What stands behind the header of a module, its name at the end included. -/
theorem alike_behindHeader {body body' : Node → Parser Node}
    (h : ∀ name name', L.Name name name' → Alike L (body name) (body' name'))
    (hc : ∀ name', Composed L.limit (body' name')) :
    Alike L (moduleHeader >>= body) (moduleHeader >>= body') :=
  ⟨moduleHeader_name.bind (fun name name' hname => (h name name' hname).by_rel) hc⟩

theorem alike_definitionModule :
    Alike L (definitionModule o) (definitionModule o') := by
  unfold definitionModule
  refine .bind inferInstance (fun _ => alike_behindHeader (fun name name' hname => ?_)
    fun _ => inferInstance) fun _ => inferInstance
  have := alike_unitClosing hname
  have : Same L name name' := ⟨hname.corresponds⟩
  infer_instance

theorem alike_programModule (kind : Kind) :
    Alike L (programModule o kind) (programModule o' kind) := by
  unfold programModule
  refine alike_behindHeader (fun name name' hname => ?_) fun _ => inferInstance
  have := alike_unitClosing hname
  have : Same L name name' := ⟨hname.corresponds⟩
  infer_instance

theorem composed_programModule (o' : ParseOptions) [Reliable L.limit (outermost o')] (kind : Kind) :
    Composed L.limit (programModule o' kind) := by
  unfold programModule
  infer_instance

theorem alike_unitRule (t : Token) :
    Alike L (unitRule o t) (unitRule o' t) := by
  unfold unitRule
  have := composed_programModule (L := L) o'
  split
  · exact alike_definitionModule
  · exact .bind inferInstance (fun _ => alike_programModule _) fun _ => inferInstance
  · exact alike_programModule _

theorem mem_startOf_iff {kind : UnitKind} {p p' : Progress} (hp : L.progress p p') :
    p.lookahead.token ∈ startOf kind ↔ p'.lookahead.token ∈ startOf kind :=
  Bool.eq_iff_iff.1 (Likeness.contains_eq hp)

/-- Units that start with tokens of one normal form are read alike, if the second run may open at
least as many levels, and runs are alike where no level is left for the first one. -/
theorem ends_compilationUnit {o o' : ParseOptions} [AlikeOptions L o o']
    (hlimit : L.limit = o'.maxNesting) (hle : o.maxNesting ≤ o'.maxNesting)
    (hbase : ∀ x, Alike L (nested o 0 x) (nested o' (o'.maxNesting - o.maxNesting) x))
    {kind : UnitKind} {p p' : Progress} (hp : L.progress p p')
    (hstart : p.lookahead.token ∈ startOf kind) :
    L.Ends (Comparable.rel L) ((compilationUnit o kind).exec p)
      ((compilationUnit o' kind).exec p') := by
  have : AlikeCalls L (outermost o) (outermost o') := by
    have hcalls := alikeCalls_nested hlimit hbase o.maxNesting
    rw [Nat.sub_add_cancel hle] at hcalls
    exact hcalls
  have : Reliable L.limit (outermost o') := hlimit ▸ inferInstance
  have hrule : unitRule o p.lookahead.token = unitRule o p'.lookahead.token := by
    have hindistinct : Token.Indistinct (unitRule o) := ⟨rfl, rfl, rfl, rfl⟩
    rw [← hindistinct.normal_eq, L.normal_eq (L.lookahead hp), hindistinct.normal_eq]
  rw [exec_compilationUnit_of_mem hstart,
    exec_compilationUnit_of_mem ((mem_startOf_iff hp).1 hstart), hrule]
  exact (alike_unitRule _).by_rel p p' hp

end Units

end Grammar

end Modula
