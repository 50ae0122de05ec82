import Modula.Proofs.Counts
import Modula.Proofs.YieldsRules

/-!
# The rules of the grammar tally

Expressions, types, headers and imports count nothing and hold nothing that is counted. Statements
and declarations count themselves, each once, before or behind the moment when their node is put
together; lists, branches and blocks pass on what was found in them. At the end of a unit the
counters show what its tree weighs.
-/

namespace Modula

open Modula.Parser

/-- The calls of a rule that count nothing. -/
class IdleCalls (call : Call) : Prop where
  expression : Idle (call .expression)
  type : Idle (call .type)
  variantFields : Idle (call .variantFields)

/-- What a rule relies on when it calls a nested construct. In definitions there are no procedures
to be called. -/
structure Tallying (c : Counter) (part : Grammar.Part) (call : Call) : Prop where
  shaping : Shaping false call
  idle : IdleCalls call
  statement : Tallies c 0 (c.weigh part) (call .statement)
  procedure : part = .declarations → Tallies c 0 (c.weigh part) (call .procedure)

namespace Grammar

variable {α : Type}

/-! ## Idle rules -/

section Idle

instance {call : Call} [h : IdleCalls call] : Idle (call .expression) := h.expression

instance {call : Call} [h : IdleCalls call] : Idle (call .type) := h.type

instance {call : Call} [h : IdleCalls call] : Idle (call .variantFields) := h.variantFields

instance (w : Token) (rule : Parser Node) [Idle rule] : Idle (optionalAt w rule) := by
  unfold optionalAt
  infer_instance

instance (s : TokenSet) : Idle (identList s) := by
  unfold identList
  infer_instance

instance (s : TokenSet) (parts : List Node) : Idle (qualidentRound s parts) := by
  unfold qualidentRound
  infer_instance

instance (s : TokenSet) : Idle (qualident s) := by
  unfold qualident
  infer_instance

instance (o : ParseOptions) (semicolon : Symbol) : Idle (reportErrant o semicolon) :=
  .bind inferInstance fun _ => .report nofun

theorem idle_missingItems {c : Code} (hc : c ≠ .opaqueOutsideDefinition) :
    Idle (missingItems c) :=
  .bind inferInstance fun _ => .bind (.report hc) inferInstance

instance (o : ParseOptions) (start closers : TokenSet) (item : Parser Node) [Idle item]
    (found : List Node) : Idle (semicolonRound o start closers item found) := by
  unfold semicolonRound
  infer_instance

instance (o : ParseOptions) (start closers : TokenSet) (item : Parser Node) [Idle item] :
    Idle (semicolonList o start closers item) := by
  unfold semicolonList
  infer_instance

variable {call : Call} [IdleCalls call]

instance : Idle (expressionList call) := by
  unfold expressionList
  infer_instance

instance : Idle (valueComponent call) := by
  unfold valueComponent
  infer_instance

instance : Idle (caseLabelList call) := by
  unfold caseLabelList
  infer_instance

instance : Idle (structuredValue call) := by
  unfold structuredValue
  infer_instance

instance : Idle (actualParameters call) := by
  unfold actualParameters
  infer_instance

instance (designator : Node) : Idle (selectorRound call designator) := by
  unfold selectorRound
  refine .bind inferInstance fun t => ?_
  split <;> infer_instance

instance : Idle (designator call) := by
  unfold designator
  infer_instance

instance : Idle (designatorOrCall call) := by
  unfold designatorOrCall
  infer_instance

instance : Idle (parenthesized call) := by
  unfold parenthesized
  infer_instance

instance : Idle (simpleFactor call) := by
  unfold simpleFactor
  refine .bind inferInstance fun t => ?_
  split <;> infer_instance

instance : Idle (factor call) := by
  unfold factor
  infer_instance

instance : Idle (simpleTerm call) := by
  unfold simpleTerm
  infer_instance

instance (kind? : Token → Option Kind) (operand : Parser Node) [Idle operand] (left : Node) :
    Idle (operatorRound kind? operand left) := by
  unfold operatorRound
  refine .bind inferInstance fun t => ?_
  split <;> infer_instance

instance : Idle (term call) := by
  unfold term
  infer_instance

instance : Idle (signedTerm call) := by
  unfold signedTerm
  refine .bind inferInstance fun t => ?_
  split <;> infer_instance

instance : Idle (simpleExpression call) := by
  unfold simpleExpression
  infer_instance

instance : Idle (expression call) := by
  unfold expression
  refine .bind inferInstance fun left => .bind inferInstance fun t => ?_
  split <;> infer_instance

instance : Idle enumBase := by
  unfold enumBase
  infer_instance

instance : Idle enumType := by
  unfold enumType
  infer_instance

instance : Idle aliasType := by
  unfold aliasType
  infer_instance

instance : Idle setType := by
  unfold setType
  infer_instance

instance (s : TokenSet) : Idle (parameterType s) := by
  unfold parameterType
  infer_instance

instance (s : TokenSet) : Idle (formalType s) := by
  unfold formalType
  refine .bind inferInstance fun t => ?_
  split <;> infer_instance

instance : Idle formalTypeList := by
  unfold formalTypeList
  infer_instance

instance : Idle procedureType := by
  unfold procedureType
  infer_instance

instance : Idle (subrangeType call) := by
  unfold subrangeType
  infer_instance

instance : Idle (arrayType call) := by
  unfold arrayType
  infer_instance

instance : Idle (pointerType call) := by
  unfold pointerType
  infer_instance

variable {o : ParseOptions}

instance : Idle (fields call) := by
  unfold fields
  infer_instance

instance : Idle (fieldList o call) := by
  unfold fieldList
  infer_instance

instance : Idle (fieldListSequence o call) := by
  unfold fieldListSequence
  have := idle_missingItems (c := .emptyFields) nofun
  infer_instance

instance : Idle (variant o call) := by
  unfold variant
  infer_instance

instance : Idle (variantFieldList o call) := by
  unfold variantFieldList
  refine .bind inferInstance fun _ => .bind inferInstance fun tag => ?_
  refine .bind inferInstance fun _ => .bind inferInstance fun tagType => ?_
  infer_instance

instance : Idle recordBase := by
  unfold recordBase
  infer_instance

instance : Idle (recordBody o call) := by
  unfold recordBody
  split <;> infer_instance

instance : Idle (recordType o call) := by
  unfold recordType
  infer_instance

instance : Idle (typeDenoter o call) := by
  unfold typeDenoter
  refine .bind inferInstance fun t => ?_
  split <;> infer_instance

instance : Idle parameterMode := by
  unfold parameterMode
  refine .bind inferInstance fun t => ?_
  split <;> infer_instance

instance : Idle formalParameters := by
  unfold formalParameters
  infer_instance

instance : Idle (formalParameterList o) := by
  unfold formalParameterList
  infer_instance

instance : Idle (procedureHeader o) := by
  unfold procedureHeader
  infer_instance

instance : Idle unqualifiedImport := by
  unfold unqualifiedImport
  infer_instance

instance : Idle qualifiedImport := by
  unfold qualifiedImport
  infer_instance

instance : Idle importClause := by
  unfold importClause
  infer_instance

instance : Idle importList := by
  unfold importList
  infer_instance

instance : Idle moduleHeader := by
  unfold moduleHeader
  infer_instance

instance (name : Node) : Idle (unitClosing name) := by
  unfold unitClosing
  infer_instance

end Idle

/-! ## Statements

The rule for a statement leaves the statement itself to be counted behind it. -/

section Statements

variable {c : Counter} {part : Part}

/-- An idle rule whose answers hold nothing that is counted. -/
theorem tallies_plain (part : Part) {s : Slot} {m : Parser Node} [Idle m]
    (hy : Yields false (Fits false s) m) (hs : s.IsPlain) : Tallies c 0 (c.weigh part) m :=
  .of_idle hy fun _ => Counter.weigh_of_fits hs

theorem tallies_optionalAt {w : Token} {rule : Parser Node} (h : Tallies c 0 (c.weigh part) rule) :
    Tallies c 0 (c.weigh part) (optionalAt w rule) :=
  .ifAt (.skip fun _ => h) (.pure Counter.weigh_empty)

theorem weigh_listNode {k : Kind} (hk : k.isCounted = false) (ts : List Node) :
    c.weigh part (listNode k ts) = c.weighAll part ts := by
  unfold listNode
  cases ts with
  | nil => exact Counter.weigh_empty
  | cons t ts =>
    exact Counter.weigh_branch_of_not_counts (Counter.counts_of_not_isCounted hk) (t :: ts)

/-- An item that is dropped weighs nothing. -/
theorem tallies_semicolonList {o : ParseOptions} {start closers : TokenSet} {s : Slot}
    {item : Parser Node} (hi : Tallies c 0 (c.weigh part) item)
    (hy : Yields false (Fits false s) item) :
    Tallies c 0 (c.weighAll part) (semicolonList o start closers item) := by
  refine .map (.imp (.loop (w := c.weighAll part) (fun found => ?_) []) fun found => ?_)
  · unfold semicolonRound
    refine hi.bind_of_yields hy fun node hnode => ?_
    have hfound : c.weighAll part (if node.isEmpty then found else node :: found) =
        c.weighAll part found + c.weigh part node := by
      split
      · next hempty =>
        have hk : node.kind = .empty := beq_iff_eq.1 hempty
        rw [Counter.weigh_of_wellShaped hnode.2 (by rw [hk]; rfl), Nat.add_zero]
      · rw [Counter.weighAll_cons, Nat.add_comm]
    refine .ifAt (.skip fun semicolon => ?_) (.ifAtAny (.skip fun _ => .pure hfound) (.pure hfound))
    exact .ifAtAny (.skip fun _ => .pure hfound) (.pure hfound)
  · exact Counter.weighAll_perm (List.reverse_perm found).symm

variable {call : Call} {o : ParseOptions} (h : Tallying c part call)

include h

theorem tallies_expression : Tallies c 0 (c.weigh part) (call .expression) :=
  have := h.idle
  tallies_plain part (h.shaping .expression) (by decide)

theorem tallies_statementSequence : Tallies c 0 (c.weigh part) (statementSequence o call) := by
  unfold statementSequence
  refine .ifAtAny (.skip fun s => ?_) ?_
  · have := Idle.report (d := faultBy .emptyStatements s) nofun
    exact .skip fun _ => .pure Counter.weigh_empty
  · refine (tallies_semicolonList h.statement (h.shaping .statement)).bind fun ts => .pure ?_
    rw [weigh_listNode rfl, Nat.zero_add]

theorem tallies_assignmentOrCall :
    Tallies c (c.one part .assignment) (c.weigh part) (assignmentOrCall call) := by
  have := h.idle
  unfold assignmentOrCall
  refine (tallies_plain part (yields_designator h.shaping) (by decide)).bind fun designator => ?_
  refine .skip fun t => ?_
  split
  · refine .skip fun _ => (tallies_expression h).bind fun value => .pure ?_
    rw [Counter.weigh_statement rfl]
    simp only [Counter.weighAll_cons, Counter.weighAll_nil]
    omega
  · have hargs := tallies_plain (c := c) part (yields_actualParameters h.shaping) (by decide)
    refine hargs.bind fun arguments => .pure ?_
    rw [Counter.weigh_statement rfl]
    simp only [Counter.weighAll_cons, Counter.weighAll_nil]
    omega
  · refine .pure ?_
    rw [Counter.weigh_statement rfl]
    simp only [Counter.weighAll_cons, Counter.weighAll_nil, Counter.weigh_empty]
    omega

theorem tallies_thenBranch : Tallies c 0 (c.weigh part) (thenBranch o call) := by
  unfold thenBranch
  refine .skip fun found => ?_
  exact .ite (tallies_statementSequence h) (.pure Counter.weigh_empty)

theorem tallies_elseBranch : Tallies c 0 (c.weigh part) (elseBranch o call) :=
  tallies_optionalAt (tallies_statementSequence h)

theorem tallies_elsifBranch : Tallies c 0 (c.weigh part) (elsifBranch o call) := by
  unfold elsifBranch
  refine .skip fun _ => (tallies_expression h).bind fun condition => ?_
  refine (tallies_thenBranch h).bind fun body => .pure ?_
  rw [Counter.weigh_uncounted rfl]
  simp only [Counter.weighAll_cons, Counter.weighAll_nil]
  omega

theorem tallies_ifStatement :
    Tallies c (c.one part .assignment) (c.weigh part) (ifStatement o call) := by
  unfold ifStatement
  refine .skip fun _ => (tallies_expression h).bind fun condition => ?_
  refine (tallies_thenBranch h).bind fun body => ?_
  refine (Tallies.whileAtAny (tallies_elsifBranch h)).bind fun elsifs => ?_
  refine (tallies_elseBranch h).bind fun otherwise => .skip fun _ => .pure ?_
  rw [Counter.weigh_statement rfl]
  simp only [Counter.weighAll_cons, Counter.weighAll_nil]
  rw [weigh_listNode rfl]
  omega

theorem tallies_caseBranch : Tallies c 0 (c.weigh part) (caseBranch o call) := by
  have := h.idle
  unfold caseBranch
  refine (tallies_plain part (yields_caseLabelList h.shaping) (by decide)).bind fun labels => ?_
  refine .skip fun _ => (tallies_statementSequence h).bind fun body => .pure ?_
  rw [Counter.weigh_uncounted rfl]
  simp only [Counter.weighAll_cons, Counter.weighAll_nil]
  omega

theorem tallies_caseRound (found : List Node) :
    Tallies c (c.weighAll part found) (Round.weigh (c.weighAll part)) (caseRound o call found) := by
  have hmore : Tallies c (c.weighAll part found) (Round.weigh (c.weighAll part))
      (do return Round.more ((← caseBranch o call) :: found)) := by
    refine (tallies_caseBranch h).bind fun branch => .pure ?_
    rw [Round.weigh, Counter.weighAll_cons, Nat.add_comm]
  unfold caseRound
  refine .ifAt (.skip fun _ => hmore) (.ite ?_ (.pure rfl))
  exact .ifAtAny hmore (.pure rfl)

theorem tallies_caseStatement :
    Tallies c (c.one part .assignment) (c.weigh part) (caseStatement o call) := by
  unfold caseStatement
  refine .skip fun _ => (tallies_expression h).bind fun selector => .skip fun _ => ?_
  have hloop := Tallies.loop (tallies_caseRound (o := o) h) []
  refine hloop.bind fun branches => ?_
  refine (tallies_elseBranch h).bind fun otherwise => .skip fun _ => .pure ?_
  rw [Counter.weigh_statement rfl]
  simp only [Counter.weighAll_cons, Counter.weighAll_nil]
  rw [weigh_listNode rfl, Counter.weighAll_perm (List.reverse_perm branches)]
  omega

theorem tallies_loopStatement :
    Tallies c (c.one part .assignment) (c.weigh part) (loopStatement o call) := by
  unfold loopStatement
  refine .skip fun _ => (tallies_statementSequence h).bind fun body => .skip fun _ => .pure ?_
  rw [Counter.weigh_statement rfl]
  simp only [Counter.weighAll_cons, Counter.weighAll_nil]
  omega

theorem tallies_whileStatement :
    Tallies c (c.one part .assignment) (c.weigh part) (whileStatement o call) := by
  unfold whileStatement
  refine .skip fun _ => (tallies_expression h).bind fun condition => .skip fun _ => ?_
  refine (tallies_statementSequence h).bind fun body => .skip fun _ => .pure ?_
  rw [Counter.weigh_statement rfl]
  simp only [Counter.weighAll_cons, Counter.weighAll_nil]
  omega

theorem tallies_repeatStatement :
    Tallies c (c.one part .assignment) (c.weigh part) (repeatStatement o call) := by
  unfold repeatStatement
  refine .skip fun _ => (tallies_statementSequence h).bind fun body => .skip fun _ => ?_
  refine (tallies_expression h).bind fun condition => .pure ?_
  rw [Counter.weigh_statement rfl]
  simp only [Counter.weighAll_cons, Counter.weighAll_nil]
  omega

theorem tallies_forStatement :
    Tallies c (c.one part .assignment) (c.weigh part) (forStatement o call) := by
  unfold forStatement
  refine .skip fun _ => ?_
  refine (tallies_plain part (yields_ident _) (by decide)).bind fun control => .skip fun _ => ?_
  refine (tallies_expression h).bind fun first => .skip fun _ => ?_
  refine (tallies_expression h).bind fun last => ?_
  refine (tallies_optionalAt (tallies_expression h)).bind fun step => .skip fun _ => ?_
  refine (tallies_statementSequence h).bind fun body => .skip fun _ => .pure ?_
  rw [Counter.weigh_statement rfl]
  simp only [Counter.weighAll_cons, Counter.weighAll_nil]
  omega

theorem tallies_returnStatement :
    Tallies c (c.one part .assignment) (c.weigh part) (returnStatement call) := by
  unfold returnStatement
  refine .skip fun _ => ?_
  refine (Tallies.ifAtAny (tallies_expression h) (.pure Counter.weigh_empty)).bind fun value => ?_
  refine .pure ?_
  rw [Counter.weigh_statement rfl]
  simp only [Counter.weighAll_cons, Counter.weighAll_nil]
  omega

theorem tallies_of_statementRule? {t : Token} {rule : Parser Node}
    (hr : statementRule? o call t = some rule) :
    Tallies c (c.one part .assignment) (c.weigh part) rule := by
  unfold statementRule? at hr
  split at hr
  · cases hr; exact tallies_ifStatement h
  · cases hr; exact tallies_caseStatement h
  · cases hr; exact tallies_loopStatement h
  · cases hr; exact tallies_whileStatement h
  · cases hr; exact tallies_repeatStatement h
  · cases hr; exact tallies_forStatement h
  · cases hr; exact tallies_returnStatement h
  · cases hr
    refine .skip fun _ => .pure ?_
    rw [Tree.bare, Counter.weigh_statement rfl, Counter.weighAll_nil, Nat.zero_add]
  · split at hr
    · cases hr; exact tallies_assignmentOrCall h
    · cases hr

/-- A statement counts itself behind all its parts. -/
theorem tallies_statement : Tallies c 0 (c.weigh part) (statement o call) := by
  have hcount (p : Progress) :
      c.value (p.count fun s => { s with statements := s.statements + 1 }) =
        c.value p + c.one part .assignment := by
    cases c <;> cases part <;> rfl
  unfold statement
  refine .skip fun t => ?_
  split
  · next rule hr =>
    exact (tallies_of_statementRule? h hr).settle hcount
  · exact .skip fun _ => .pure Counter.weigh_empty

end Statements

/-! ## Declarations -/

section Declarations

variable {c : Counter} {part : Part} {call : Call} {o : ParseOptions}

theorem tallies_countDeclaration (part : Part) {k : Kind}
    (hk : k = .constantDefinition ∨ k = .typeDefinition ∨ k = .variableDeclaration) :
    Tallies c 0 (fun _ => c.one part k) countDeclaration := by
  refine .count fun p => ?_
  rcases hk with rfl | rfl | rfl <;> cases c <;> cases part <;> rfl

theorem tallies_countProcedure (part : Part) {k : Kind} (hk : k.isProcedure) :
    Tallies c 0 (fun _ => c.one part k) countProcedure := by
  refine .count fun p => ?_
  revert hk
  cases k <;> intro hk <;> first | contradiction | (cases c <;> cases part <;> rfl)

/-- An opaque type is reported where it is counted. -/
theorem tallies_opaqueType : Tallies c 0 (c.weigh part) (opaqueType part) := by
  cases part with
  | definitions =>
    refine .skip fun _ => .pure ?_
    cases c <;> rfl
  | declarations =>
    have hreport : Tallies c 0 (fun _ => c.one .declarations .opaqueType) (do
        report (faultAt .opaqueOutsideDefinition (← lookahead))
        advance) := by
      refine .skip fun s => ?_
      intro p u q hm
      cases hm
      rw [Nat.add_zero, Counter.value_advance, Counter.value_report_opaque c p rfl]
    refine hreport.bind fun _ => .pure ?_
    rw [Tree.bare, Counter.weigh_branch, Counter.weighAll_nil]

theorem tallies_procedureHeader (part : Part) {w : Node → Nat} {k : Header → Parser Node}
    {due : Nat}
    (hk : ∀ header, c.weigh part header.name = 0 → c.weigh part header.parameters = 0 →
      c.weigh part header.result = 0 → Tallies c due w (k header)) :
    Tallies c due w (procedureHeader o >>= k) := by
  have hheader : Tallies c 0 (fun _ => 0) (procedureHeader o) :=
    .of_idle (yields_procedureHeader o) fun _ _ => rfl
  refine hheader.bind_of_yields (yields_procedureHeader o) fun header hfits => ?_
  obtain ⟨hn, hp, hr⟩ := hfits
  exact hk header (Counter.weigh_of_fits (by decide) hn) (Counter.weigh_of_fits (by decide) hp)
    (Counter.weigh_of_fits (by decide) hr)

theorem tallies_procedureDefinition :
    Tallies c 0 (c.weigh part) (procedureDefinition o) := by
  unfold procedureDefinition
  refine tallies_procedureHeader part fun header hn hp hr => .skip fun _ => ?_
  refine (tallies_countProcedure part (k := .procedureDefinition) rfl).bind fun _ => .pure ?_
  rw [Counter.weigh_branch]
  simp only [Counter.weighAll_cons, Counter.weighAll_nil, hn, hp, hr]

theorem tallies_declarationSection {item : Parser Node} (hi : Tallies c 0 (c.weigh part) item) :
    Tallies c 0 (c.weighAll part) (declarationSection item) :=
  .skip fun _ => .whileAtAny (hi.bind fun _ => .skip fun _ => .pure (Nat.zero_add _).symm)

variable (h : Tallying c part call)

include h

theorem tallies_type : Tallies c 0 (c.weigh part) (call .type) :=
  have := h.idle
  tallies_plain part (h.shaping .type) (by decide)

theorem tallies_constantDefinition : Tallies c 0 (c.weigh part) (constantDefinition call) := by
  unfold constantDefinition
  refine (tallies_plain part (yields_ident _) (by decide)).bind fun name => .skip fun _ => ?_
  refine (tallies_expression h).bind fun value => ?_
  refine (tallies_countDeclaration part (.inl rfl)).bind fun _ => .pure ?_
  rw [Counter.weigh_branch]
  simp only [Counter.weighAll_cons, Counter.weighAll_nil]
  omega

theorem tallies_typeDefinition : Tallies c 0 (c.weigh part) (typeDefinition call part) := by
  unfold typeDefinition
  refine (tallies_plain part (yields_ident _) (by decide)).bind fun name => .skip fun _ => ?_
  refine (Tallies.ifAt tallies_opaqueType (tallies_type h)).bind fun denoter => ?_
  refine (tallies_countDeclaration part (.inr (.inl rfl))).bind fun _ => .pure ?_
  rw [Counter.weigh_branch]
  simp only [Counter.weighAll_cons, Counter.weighAll_nil]
  omega

theorem tallies_variableDeclaration :
    Tallies c 0 (c.weigh part) (variableDeclaration call) := by
  unfold variableDeclaration
  refine (tallies_plain part (yields_identList _) (by decide)).bind fun names => .skip fun _ => ?_
  refine (tallies_type h).bind fun type => ?_
  refine (tallies_countDeclaration part (.inr (.inr rfl))).bind fun _ => .pure ?_
  rw [Counter.weigh_branch]
  simp only [Counter.weighAll_cons, Counter.weighAll_nil]
  omega

theorem tallies_procedureIn : Tallies c 0 (c.weigh part) (procedureIn o call part) := by
  cases part with
  | definitions => exact tallies_procedureDefinition
  | declarations => exact h.procedure rfl

theorem tallies_declarationRound (found : List (List Node)) :
    Tallies c (c.weighAll part found.flatten) (Round.weigh fun ds => c.weighAll part ds.flatten)
      (declarationRound o call part found) := by
  have hround {m : Parser (List Node)} (hm : Tallies c 0 (c.weighAll part) m) :
      Tallies c (c.weighAll part found.flatten) (Round.weigh fun ds => c.weighAll part ds.flatten)
        (do return Round.more ((← m) :: found)) := by
    refine hm.bind fun ds => .pure ?_
    rw [Round.weigh, List.flatten_cons, Counter.weighAll_append, Nat.add_comm]
  unfold declarationRound
  refine .skip fun t => ?_
  split
  · exact hround (tallies_declarationSection (tallies_constantDefinition h))
  · exact hround (tallies_declarationSection (tallies_typeDefinition h))
  · exact hround (tallies_declarationSection (tallies_variableDeclaration h))
  · refine (tallies_procedureIn h).bind fun d => .pure ?_
    rw [Round.weigh, List.flatten_cons, List.singleton_append, Counter.weighAll_cons, Nat.add_comm]
  · exact .ifAtAny (.pure rfl) (.skip fun _ => .pure rfl)

theorem tallies_declarationList :
    Tallies c 0 (c.weigh part) (declarationList o call part) := by
  unfold declarationList
  refine (Tallies.loop (tallies_declarationRound h) []).bind fun sections => .pure ?_
  have hperm := (List.reverse_perm sections).flatten
  rw [weigh_listNode (by cases part <;> rfl), Counter.weighAll_perm hperm]
  exact (Nat.zero_add _).symm

theorem tallies_block (hpart : part = .declarations) :
    Tallies c 0 (c.weigh part) (block o call) := by
  subst hpart
  unfold block
  refine (tallies_declarationList h).bind fun declarations => ?_
  refine (tallies_optionalAt (tallies_statementSequence h)).bind fun body => .skip fun _ => ?_
  refine .pure ?_
  rw [Counter.weigh_uncounted rfl]
  simp only [Counter.weighAll_cons, Counter.weighAll_nil]
  omega

theorem tallies_procedureDeclaration (hpart : part = .declarations) :
    Tallies c 0 (c.weigh part) (procedureDeclaration o call) := by
  unfold procedureDeclaration
  refine tallies_procedureHeader part fun header hn hp hr => .skip fun _ => ?_
  refine (tallies_block h hpart).bind fun body => .skip fun _ => .skip fun _ => ?_
  refine (tallies_countProcedure part (k := .procedureDeclaration) rfl).bind fun _ => .pure ?_
  rw [Counter.weigh_branch]
  simp only [Counter.weighAll_cons, Counter.weighAll_nil, hn, hp, hr]
  omega

end Declarations

/-! ## Nested constructs and compilation units -/

theorem idleCalls_nested (o : ParseOptions) (levels : Nat) : IdleCalls (nested o levels) := by
  induction levels with
  | zero =>
    have hfail (x : Nested) : Idle (nested o 0 x) := ⟨fun c p t q hm => by cases hm⟩
    exact ⟨hfail _, hfail _, hfail _⟩
  | succ levels ih =>
    exact ⟨inferInstanceAs (Idle (expression _)), inferInstanceAs (Idle (typeDenoter o _)),
      inferInstanceAs (Idle (variantFieldList o _))⟩

/-- The nested constructs tally, however many levels are left. -/
theorem tallying_nested (c : Counter) (part : Part) (o : ParseOptions) (levels : Nat) :
    Tallying c part (nested o levels) := by
  induction levels with
  | zero =>
    have hfail (x : Nested) : Tallies c 0 (c.weigh part) (nested o 0 x) :=
      fun p t q hm => by cases hm
    exact ⟨shaping_nested o 0, idleCalls_nested o 0, hfail _, fun _ => hfail _⟩
  | succ levels ih =>
    exact ⟨shaping_nested o _, idleCalls_nested o _, tallies_statement ih,
      tallies_procedureDeclaration ih⟩

variable {c : Counter} {o : ParseOptions}

/-- The part in which the declarations of a unit stand, by the kind of its root. -/
def partOf (root : Kind) : Part :=
  if root = .definitionModule then .definitions else .declarations

theorem tallies_definitionModule :
    Tallies c 0 (fun t => c.weigh (partOf t.kind) t) (definitionModule o) := by
  unfold definitionModule
  refine .skip fun _ => ?_
  refine (tallies_plain .definitions yields_moduleHeader (by decide)).bind fun name => ?_
  refine (tallies_plain .definitions yields_importList (by decide)).bind fun imports => ?_
  refine (tallies_declarationList (tallying_nested c _ o _)).bind fun definitions => ?_
  refine .skip fun _ => .skip fun _ => .pure ?_
  change c.weigh .definitions _ = _
  rw [Counter.weigh_uncounted rfl]
  simp only [Counter.weighAll_cons, Counter.weighAll_nil]
  omega

theorem tallies_programModule {kind : Kind}
    (hk : kind = .implementationModule ∨ kind = .programModule) :
    Tallies c 0 (fun t => c.weigh (partOf t.kind) t) (programModule o kind) := by
  unfold programModule
  refine (tallies_plain .declarations yields_moduleHeader (by decide)).bind fun name => ?_
  refine (tallies_plain .declarations yields_importList (by decide)).bind fun imports => ?_
  refine (tallies_block (tallying_nested c _ o _) rfl).bind fun body => .skip fun _ => .pure ?_
  have hpart : partOf kind = .declarations := by rcases hk with rfl | rfl <;> rfl
  change c.weigh (partOf kind) _ = _
  rw [hpart, Counter.weigh_uncounted (by rcases hk with rfl | rfl <;> rfl)]
  simp only [Counter.weighAll_cons, Counter.weighAll_nil]
  omega

theorem tallies_compilationUnit (kind : UnitKind) :
    Tallies c 0 (fun t => c.weigh (partOf t.kind) t) (compilationUnit o kind) := by
  unfold compilationUnit
  refine .skip fun first => .ite ?_ ?_
  · split
    · exact tallies_definitionModule
    · exact .skip fun _ => tallies_programModule (.inl rfl)
    · exact tallies_programModule (.inr rfl)
  · intro p t q hm
    cases hm

end Grammar

/-! ## The counts of a parse -/

/-- At the start of a unit nothing was counted yet. -/
theorem Counter.value_startOfUnit (c : Counter) (o : LexicalOptions) (text : String) :
    c.value (startOfUnit o text) = 0 := by
  have hstats (items : List Item) :
      (Progress.start items).queue.stats.statements = 0 ∧
        (Progress.start items).queue.stats.procedures = 0 ∧
        (Progress.start items).queue.stats.declarations = 0 := by
    cases items with
    | nil => exact ⟨rfl, rfl, rfl⟩
    | cons i items => exact Queue.stats_append_counts {} i.reports
  obtain ⟨hs, hp, hd⟩ := hstats (Item.ofStream (Scanned.stream o text))
  cases c with
  | statements => exact hs
  | procedures => exact hp
  | declarations => exact hd
  | opaques =>
    rw [value, foreseen_startOfUnit, List.countP_eq_zero]
    intro d hmem
    have hphase := onlyLexical_reports o text d hmem
    unfold Diagnostic.phase at hphase
    revert hphase
    cases d.code <;> decide

/-- With a tree, the counters show what the tree weighs. -/
theorem Counter.value_of_parse (c : Counter) {o : ParseOptions} {kind : UnitKind} {text : String}
    {out : ParseOutput} {p : Progress}
    (hread : readUnit o kind (Item.ofStream (Scanned.stream o.lexical text)) =
      (.ok out.tree, p)) :
    c.value p = c.weigh (Grammar.partOf out.tree.kind) out.tree := by
  have htally := Grammar.tallies_compilationUnit (c := c) kind _ _ _ hread
  have hstart : c.value (Progress.start _) = 0 := c.value_startOfUnit o.lexical text
  rw [hstart, Nat.zero_add] at htally
  exact htally

theorem stats_of_parse {o : ParseOptions} {kind : UnitKind} {text : String} {out : ParseOutput}
    {p : Progress} (h : parse o kind text = .ok out)
    (hread : readUnit o kind (Item.ofStream (Scanned.stream o.lexical text)) =
      (.ok out.tree, p)) :
    out.stats = { p.queue.stats with lines := Text.lineCount text } ∧
      out.reports = p.queue.toList := by
  have hexec : (Grammar.compilationUnit o kind).exec (startOfUnit o.lexical text) = _ := hread
  rw [parse_eq_outcomeOf, hexec] at h
  have hout := Except.ok.inj h
  exact ⟨congrArg ParseOutput.stats hout.symm, congrArg ParseOutput.reports hout.symm⟩

/-- The counters describe the tree. However many faults were recovered from, the statements,
procedures and declarations that were counted are those of the tree; opaque types are reported where
they stand outside definitions, each of them once; and no fault was reported that ends a parse. -/
theorem counts_of_parse (o : ParseOptions) (kind : UnitKind) (text : String) (out : ParseOutput)
    (h : parse o kind text = .ok out) :
    out.stats.statements = out.tree.kinds.countP Kind.isStatement ∧
    out.stats.procedures = out.tree.kinds.countP Kind.isProcedure ∧
    out.stats.declarations = out.tree.kinds.countP Kind.isDeclaration ∧
    ((out.tree.kind = .definitionModule ∧
        out.reports.countP (·.code = .opaqueOutsideDefinition) = 0) ∨
      ((out.tree.kind = .implementationModule ∨ out.tree.kind = .programModule) ∧
        out.reports.countP (·.code = .opaqueOutsideDefinition) =
          out.tree.kinds.countP (· = .opaqueType))) ∧
    out.reports.countP (·.code = .nestingTooDeep) = 0 ∧
    out.reports.countP (·.code = .invalidStart) = 0 := by
  cases ends_of_startsLike (startsLike_of_parse_eq_ok h) with
  | tooDeep e he => rw [h] at he; cases he
  | withTree out' p hparse hread hend hcodes =>
    rw [h] at hparse
    cases hparse
    obtain ⟨hstats, hreports⟩ := stats_of_parse h hread
    have hvalue (c : Counter) := c.value_of_parse hread
    have hroot : out.tree.kind = .definitionModule ∨ out.tree.kind = .implementationModule ∨
        out.tree.kind = .programModule := by
      have hfits := (Grammar.yields_compilationUnit (g := false) o kind _ _ _ hread).2 nofun
      rcases hfits.1 with hmem | ⟨-, hfilled, -⟩
      · simpa [Grammar.unitSlot, Slot.filled] using hmem
      · cases hfilled
    have hforeseen : p.foreseen = out.reports := by
      rw [Progress.foreseen, hend.2, hreports]
      exact List.append_nil _
    rw [hstats]
    refine ⟨hvalue .statements, hvalue .procedures, hvalue .declarations, ?_, ?_, ?_⟩
    · have hopaques := hvalue .opaques
      rw [Counter.value, hforeseen] at hopaques
      rcases hroot with hroot | hroot | hroot
      · refine .inl ⟨hroot, hopaques.trans ?_⟩
        rw [hroot, Counter.weigh, List.countP_eq_zero]
        exact fun _ _ => Bool.false_ne_true
      · refine .inr ⟨.inl hroot, hopaques.trans ?_⟩
        rw [hroot]
        rfl
      · refine .inr ⟨.inr hroot, hopaques.trans ?_⟩
        rw [hroot]
        rfl
    · exact List.countP_eq_zero.2 fun d hd => by simpa using (hcodes d hd).1
    · exact List.countP_eq_zero.2 fun d hd => by simpa using (hcodes d hd).2

/-- A program with an opaque type and without the value of its assignment: what was counted is what
its tree holds. -/
theorem counts_of_faulty_program :
    ∃ out, parse {} .any "MODULE m; TYPE t = OPAQUE; BEGIN EXIT; x := END m." = .ok out ∧
      out.stats.statements = out.tree.kinds.countP Kind.isStatement ∧
      out.stats.declarations = out.tree.kinds.countP Kind.isDeclaration ∧
      out.reports.countP (·.code = .nestingTooDeep) = 0 := by
  have hok : (parse {} .any "MODULE m; TYPE t = OPAQUE; BEGIN EXIT; x := END m.").isOk = true := by
    decide +kernel
  cases hp : parse {} .any "MODULE m; TYPE t = OPAQUE; BEGIN EXIT; x := END m." with
  | error e => rw [hp] at hok; cases hok
  | ok out =>
    obtain ⟨hstatements, -, hdeclarations, -, hdeep, -⟩ := counts_of_parse {} .any _ out hp
    exact ⟨out, rfl, hstatements, hdeclarations, hdeep⟩

end Modula
