import Mathlib.Data.List.Forall2
import Modula.Parse

/-!
# The shape of trees

Every kind of node has a fixed number of parts, or is a row of parts of one sort, or is a terminal.
For each part the table says which kinds may stand there. Where a symbol was missing, the
placeholder may stand as well, but not everywhere: some parts are there even after a fault.
-/

namespace Modula

/-- What may stand at one place of a node. -/
structure Slot where
  /-- The kinds that belong there. The placeholder is one of them where a part is optional. -/
  kinds : List Kind
  /-- The placeholder does not even stand there for something that was missing. -/
  isFilled : Bool

namespace Slot

/-- A part of one of the kinds. -/
def of (kinds : List Kind) : Slot := ⟨kinds, false⟩

/-- A part of one of the kinds that is there even after a fault. -/
def filled (kinds : List Kind) : Slot := ⟨kinds, true⟩

/-- A part that may be absent. -/
def optional (s : Slot) : Slot := ⟨.empty :: s.kinds, false⟩

/-- A node of the kind may stand there. In a tree without gaps the placeholder stands for absent
optional parts only. -/
def Admits (gapless : Bool) (s : Slot) (k : Kind) : Prop :=
  k ∈ s.kinds ∨ (k = .empty ∧ s.isFilled = false ∧ gapless = false)

/-- Whatever may stand at the place may stand at the second one as well. -/
def isWithin (r s : Slot) : Bool :=
  r.kinds.all (s.kinds.contains ·) && (!s.isFilled || r.isFilled)

/-! ## The places of the tree -/

def ident : Slot := of [.ident]

def identList : Slot := filled [.identList]

def qualident : Slot := of [.ident, .qualifiedIdent]

def designator : Slot := of [.ident, .field, .subscript, .dereference]

def expression : Slot :=
  of [.equal, .notEqual, .less, .lessOrEqual, .greater, .greaterOrEqual, .identity, .isIn, .plus,
    .minus, .or, .times, .divide, .div, .mod, .and, .negation, .not, .typeConversion,
    .functionCall, .ident, .field, .subscript, .dereference, .structuredValue, .wholeValue,
    .realValue, .characterValue, .quotedValue]

/-- A value or a range of values. -/
def component : Slot := ⟨.range :: expression.kinds, false⟩

def expressionList : Slot := filled [.expressionList]

def caseLabelList : Slot := filled [.caseLabelList]

def arguments : Slot := filled [.arguments]

def type : Slot :=
  of [.aliasType, .ident, .qualifiedIdent, .subrangeType, .enumType, .setType, .arrayType,
    .recordType, .extensibleRecordType, .pointerType, .procedureType]

/-- A parameter without `ARGLIST` and `CAST`. -/
def parameterType : Slot := of [.openArray, .ident, .qualifiedIdent]

def formalType : Slot := ⟨[.argumentList, .castParameter] ++ parameterType.kinds, false⟩

def fieldListSequence : Slot := of [.fieldListSequence]

def statementSequence : Slot := of [.statementSequence]

def block : Slot := filled [.block]

end Slot

/-- What a node consists of. -/
inductive Shape where
  /-- One part for each place. -/
  | parts (slots : List Slot)
  /-- Any number of parts. -/
  | row (slot : Slot)
  /-- A value and no parts. -/
  | terminal

open Slot in
/-- What the nodes of a kind consist of. -/
def shapeOf : Kind → Shape
  | .empty | .opaqueType | .exitStatement => .parts []
  -- compilation units
  | .definitionModule =>
    .parts [ident, optional (of [.importList]), optional (of [.definitionList])]
  | .implementationModule | .programModule =>
    .parts [ident, optional (of [.importList]), block]
  | .importList => .row (filled [.qualifiedImport, .unqualifiedImport])
  | .qualifiedImport => .row (filled [.ident])
  | .unqualifiedImport => .parts [ident, identList]
  | .block => .parts [optional (of [.declarationList]), optional statementSequence]
  | .definitionList =>
    .row (filled [.constantDefinition, .typeDefinition, .variableDeclaration,
      .procedureDefinition])
  | .declarationList =>
    .row (filled [.constantDefinition, .typeDefinition, .variableDeclaration,
      .procedureDeclaration])
  -- definitions and declarations
  | .constantDefinition => .parts [ident, expression]
  | .typeDefinition => .parts [ident, ⟨.opaqueType :: type.kinds, false⟩]
  | .variableDeclaration => .parts [identList, type]
  | .procedureDefinition =>
    .parts [ident, optional (of [.formalParameterList]), optional qualident]
  | .procedureDeclaration =>
    .parts [ident, optional (of [.formalParameterList]), optional qualident, block]
  -- types
  | .aliasType => .parts [qualident]
  | .qualifiedIdent => .row (filled [.ident])
  | .subrangeType => .parts [expression, expression, optional qualident]
  | .enumType => .parts [optional qualident, identList]
  | .setType => .parts [of [.ident, .qualifiedIdent, .enumType]]
  | .arrayType => .parts [expressionList, type]
  | .recordType => .parts [fieldListSequence]
  | .extensibleRecordType => .parts [optional qualident, fieldListSequence]
  | .pointerType => .parts [type]
  | .procedureType => .parts [optional (of [.formalTypeList]), optional qualident]
  | .formalTypeList => .row formalType
  | .fieldListSequence => .row (filled [.fieldList, .variantFieldList])
  | .fieldList => .parts [identList, type]
  | .variantFieldList =>
    .parts [optional ident, qualident, filled [.variantList], optional fieldListSequence]
  | .variantList => .row (filled [.variant])
  | .variant => .parts [caseLabelList, fieldListSequence]
  -- formal parameters
  | .formalParameterList =>
    .row (filled [.valueParameters, .constantParameters, .variableParameters])
  | .valueParameters | .constantParameters | .variableParameters =>
    .parts [identList, formalType]
  | .argumentList | .castParameter => .parts [parameterType]
  | .openArray => .parts [qualident]
  -- statements
  | .statementSequence =>
    .row (filled [.assignment, .procedureCall, .ifStatement, .caseStatement, .loopStatement,
      .whileStatement, .repeatStatement, .forStatement, .returnStatement, .exitStatement])
  | .assignment => .parts [designator, expression]
  | .procedureCall => .parts [designator, optional arguments]
  | .ifStatement =>
    .parts [expression, statementSequence, optional (of [.elsifList]), optional statementSequence]
  | .elsifList => .row (filled [.elsifBranch])
  | .elsifBranch => .parts [expression, statementSequence]
  | .caseStatement => .parts [expression, optional (of [.caseList]), optional statementSequence]
  | .caseList => .row (filled [.caseBranch])
  | .caseBranch => .parts [caseLabelList, statementSequence]
  | .caseLabelList => .row component
  | .range => .parts [expression, expression]
  | .loopStatement => .parts [statementSequence]
  | .whileStatement => .parts [expression, statementSequence]
  | .repeatStatement => .parts [statementSequence, expression]
  | .forStatement =>
    .parts [ident, expression, expression, optional expression, statementSequence]
  | .returnStatement => .parts [optional expression]
  -- expressions
  | .equal | .notEqual | .less | .lessOrEqual | .greater | .greaterOrEqual | .identity | .isIn
  | .plus | .minus | .or | .times | .divide | .div | .mod | .and => .parts [expression, expression]
  | .negation | .not => .parts [expression]
  | .typeConversion => .parts [expression, qualident]
  | .functionCall => .parts [designator, arguments]
  | .arguments | .expressionList => .row expression
  | .field => .parts [designator, ident]
  | .subscript => .parts [designator, expressionList]
  | .dereference => .parts [designator]
  | .structuredValue => .row component
  -- terminals
  | .identList => .row (filled [.ident])
  | .ident | .wholeValue | .realValue | .characterValue | .quotedValue => .terminal

/-- Every node of the tree has the shape of its kind. -/
inductive WellShaped (gapless : Bool) : Node → Prop where
  | parts {k : Kind} {slots : List Slot} {cs : List Node} (hk : shapeOf k = .parts slots)
    (hslots : List.Forall₂ (fun s c => s.Admits gapless c.kind) slots cs)
    (hcs : ∀ c ∈ cs, WellShaped gapless c) : WellShaped gapless (.branch k cs)
  | row {k : Kind} {slot : Slot} {cs : List Node} (hk : shapeOf k = .row slot)
    (hslot : ∀ c ∈ cs, slot.Admits gapless c.kind)
    (hcs : ∀ c ∈ cs, WellShaped gapless c) : WellShaped gapless (.branch k cs)
  | terminal {k : Kind} (s : Symbol) (hk : shapeOf k = .terminal) : WellShaped gapless (.leaf k s)

/-- A tree of the right shape that may stand at the place. -/
def Fits (gapless : Bool) (s : Slot) (t : Node) : Prop :=
  s.Admits gapless t.kind ∧ WellShaped gapless t

namespace Fits

variable {g : Bool} {s : Slot} {k : Kind}

theorem parts {slots : List Slot} {cs : List Node} (hk : shapeOf k = .parts slots)
    (hs : k ∈ s.kinds) (hcs : List.Forall₂ (Fits g) slots cs) : Fits g s (.branch k cs) := by
  refine ⟨.inl hs, .parts hk (hcs.imp fun _ _ h => h.1) ?_⟩
  clear hk hs
  induction hcs with
  | nil => simp
  | cons h _ ih =>
    refine List.forall_mem_cons.2 ⟨h.2, ih⟩

theorem row {slot : Slot} {cs : List Node} (hk : shapeOf k = .row slot) (hs : k ∈ s.kinds)
    (hcs : ∀ c ∈ cs, Fits g slot c) : Fits g s (.branch k cs) :=
  ⟨.inl hs, .row hk (fun c hc => (hcs c hc).1) fun c hc => (hcs c hc).2⟩

theorem terminal (x : Symbol) (hk : shapeOf k = .terminal) (hs : k ∈ s.kinds) :
    Fits g s (.leaf k x) := ⟨.inl hs, .terminal x hk⟩

/-- The placeholder for an absent part. -/
theorem absent (hs : .empty ∈ s.kinds) : Fits g s .empty :=
  ⟨.inl hs, .parts rfl .nil (by simp)⟩

/-- The placeholder for a missing part. -/
theorem gap (hs : s.isFilled = false) (hg : g = false) : Fits g s .empty :=
  ⟨.inr ⟨rfl, hs, hg⟩, .parts rfl .nil (by simp)⟩

/-- What fits a place fits any place that is meant for more. -/
theorem mono {r : Slot} {t : Node} (h : Fits g r t) (hkinds : ∀ k ∈ r.kinds, k ∈ s.kinds)
    (hfilled : s.isFilled = true → r.isFilled = true) : Fits g s t := by
  obtain ⟨ha, hw⟩ := h
  refine ⟨?_, hw⟩
  rcases ha with ha | ⟨hk, hr, hg⟩
  · exact .inl (hkinds _ ha)
  · refine .inr ⟨hk, ?_, hg⟩
    cases hs : s.isFilled with
    | false => rfl
    | true => rw [hfilled hs] at hr; cases hr

theorem within {r : Slot} {t : Node} (h : Fits g r t) (hrs : r.isWithin s = true) :
    Fits g s t := by
  obtain ⟨hkinds, hfilled⟩ := Bool.and_eq_true_iff.1 hrs
  refine h.mono (fun k hk => ?_) fun hs => ?_
  · exact List.contains_iff_mem.1 (List.all_eq_true.1 hkinds k hk)
  · rwa [hs, Bool.not_true, Bool.false_or] at hfilled

/-- What fits a place and is no placeholder fits it even where the placeholder does not. -/
theorem filled {kinds : List Kind} {t : Node} (h : Fits g (.of kinds) t)
    (ht : t.isEmpty = false) : Fits g (.filled kinds) t := by
  obtain ⟨ha, hw⟩ := h
  refine ⟨?_, hw⟩
  rcases ha with ha | ⟨hk, -, -⟩
  · exact .inl ha
  · rw [Tree.isEmpty, hk] at ht
    exact absurd ht (by decide)

end Fits

/-! ## Kinds closed under shapes -/

/-- Only kinds with the property may stand there, and the placeholder has it. -/
def Slot.all (K : Kind → Bool) (s : Slot) : Bool := (Kind.empty :: s.kinds).all K

/-- Only kinds with the property may stand in the places of the shape. -/
def Shape.all (K : Kind → Bool) : Shape → Bool
  | parts slots => slots.all (Slot.all K)
  | row slot => slot.all K
  | terminal => true

theorem Slot.all_of_admits {K : Kind → Bool} {g : Bool} {s : Slot} {k : Kind}
    (h : s.all K = true) (hk : s.Admits g k) : K k = true := by
  have hall := List.all_eq_true.1 h
  rcases hk with hk | ⟨rfl, -⟩
  · exact hall k (List.mem_cons_of_mem _ hk)
  · exact hall .empty List.mem_cons_self

/-- The parts of a node have the right shape, and are of the kinds that may stand there. -/
theorem WellShaped.children {K : Kind → Bool} {g : Bool} {t : Node} (h : WellShaped g t)
    (hK : (shapeOf t.kind).all K = true) :
    ∀ c ∈ t.children, WellShaped g c ∧ K c.kind = true := by
  cases h with
  | @parts k slots cs hk hslots hcs =>
    have hall := List.all_eq_true.1 (show (Shape.parts slots).all K = true from hk ▸ hK)
    intro c hc
    obtain ⟨i, hi, rfl⟩ := List.mem_iff_getElem.1 hc
    have hlength := hslots.length_eq
    have hi' : i < slots.length := hlength ▸ hi
    exact ⟨hcs _ hc, Slot.all_of_admits (hall _ (List.getElem_mem hi')) (hslots.get hi' hi)⟩
  | @row k slot cs hk hslot hcs =>
    have hall : slot.all K = true := show (Shape.row slot).all K = true from hk ▸ hK
    exact fun c hc => ⟨hcs c hc, Slot.all_of_admits hall (hslot c hc)⟩
  | terminal => nofun

end Modula
