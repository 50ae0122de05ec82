import Modula.Proofs.Parentheses

/-!
# Declarations and units bridge omissions

An item of a section ends in front of another one or of what comes behind the section, and so do the
procedures, the imports and the header of a module. With the nested constructs tied together, a
whole unit bridges an omission.
-/

namespace Modula

open Modula.Parser Modula.Grammar

namespace Grammar

set_option synthInstance.maxSize 10000

variable {H : Omission} {F : TokenSet}

/-! ## Sets -/

instance : Includes declarationFollow noSeparator := ⟨by decide⟩

instance : Includes identStart behindDeclaredItem := ⟨by decide⟩

instance : Includes declarationFollow behindDeclaredItem := ⟨by decide⟩

instance : Includes behindDeclaredItem noSeparator := ⟨by decide⟩

instance (part : Part) : Includes part.closers declarationFollow := by
  cases part <;> exact ⟨by decide⟩

instance (part : Part) : Includes (declarationStart ∪ part.closers) declarationFollow := by
  cases part <;> exact ⟨by decide⟩

instance (part : Part) : Includes (tokens [.kwEnd]) part.closers := by
  cases part <;> exact ⟨by decide⟩

instance : Includes (tokens [.kwBegin]) (Part.closers .declarations) := ⟨by decide⟩

/-! ## Declarations -/

section Declarations

variable {Q : Hindsight Node} {o : ParseOptions}

instance {Q : Hindsight Header} : Approaches H Q (procedureHeader o) := by
  unfold procedureHeader
  infer_instance

instance {Q : Hindsight Unit} : Bridges H Q countDeclaration := .count tallies_declarations

instance {Q : Hindsight Unit} : Bridges H Q countProcedure := .count tallies_procedures

instance {α : Type} {R : Hindsight α} (k : Unit → Parser α) [∀ u, Opens H F R (k u)] :
    Opens H F R (countProcedure >>= k) := by
  unfold countProcedure
  infer_instance

instance : Approaches H (.inFrontOf declarationFollow) (procedureDefinition o) := by
  unfold procedureDefinition
  infer_instance

variable {call : Call} [Reliable H.limit call] [hcall : BridgingCalls H call]

instance : Bridges H Q (constantDefinition call) := by
  unfold constantDefinition
  infer_instance

instance (part : Part) : Approaches H Q (opaqueType part) := by
  cases part with
  | definitions =>
    exact inferInstanceAs (Approaches H Q (do
      advance
      return Tree.bare .opaqueType))
  | declarations =>
    have : Faulty H (do report (faultAt .opaqueOutsideDefinition (← lookahead))) :=
      .of_report fun _ => ⟨_, _, rfl⟩
    exact inferInstanceAs (Approaches H Q
      ((do report (faultAt .opaqueOutsideDefinition (← lookahead))) >>= fun _ =>
        advance >>= fun _ => pure (Tree.bare .opaqueType)))

instance (part : Part) : Bridges H Q (typeDefinition call part) := by
  unfold typeDefinition
  infer_instance

instance : Bridges H Q (variableDeclaration call) := by
  unfold variableDeclaration
  infer_instance

theorem approaches_declarationSection {item : Parser Node} [Bridges H .any item]
    (hc : Composed H.limit item) (hcon : Consumes (· ∈ identStart) item) :
    Approaches H (.inFrontOf declarationFollow) (declarationSection item) := by
  have hitem : Consumes (· ∈ identStart) (do
      let node ← item
      expect .semicolon behindDeclaredItem
      return node) := hcon.bind (n := H.limit) fun _ => inferInstance
  have := Composed.whileAtAny (n := H.limit) inferInstance hitem
  have : Bridges H (.inFrontOf declarationFollow) (whileAtAny identStart do
      let node ← item
      expect .semicolon behindDeclaredItem
      return node) :=
    bridges_whileAtAny (F := behindDeclaredItem) inferInstance inferInstance hitem inferInstance
      inferInstance inferInstance
  unfold declarationSection
  infer_instance

instance (part : Part) : Approaches H (.inFrontOf declarationFollow) (procedureIn o call part) := by
  cases part with
  | definitions => exact inferInstanceAs (Approaches H _ (procedureDefinition o))
  | declarations => exact hcall.procedure

instance (part : Part) (found : List (List Node)) :
    Approaches H (.rounds declarationFollow (.inFrontOf part.closers))
      (declarationRound o call part found) := by
  have hmore {α : Type} {m : Parser α} (f : α → List (List Node))
      (hm : Approaches H (.inFrontOf declarationFollow) m) :
      Approaches H (.rounds declarationFollow (.inFrontOf part.closers))
        (m >>= fun a => pure (.more (f a))) :=
    hm.bind_of (fun _ => inferInstance) (fun _ => inferInstance) fun _ _ _ _ hx _ hR => by
      cases hx
      exact hR
  unfold declarationRound
  refine .token_bind fun t => ?_
  split
  · exact hmore _ (approaches_declarationSection inferInstance
      (consumes_constantDefinition H.limit call))
  · exact hmore _ (approaches_declarationSection inferInstance
      (consumes_typeDefinition H.limit call part))
  · exact hmore _ (approaches_declarationSection inferInstance
      (consumes_variableDeclaration H.limit call))
  · exact hmore _ inferInstance
  · infer_instance

instance [hF : Includes declarationFollow F] (part : Part) (found : List (List Node))
    {Q : Hindsight (Round (List (List Node)))} :
    Opens H F Q (declarationRound o call part found) := by
  have hclosers : Includes part.closers F := Includes.trans inferInstance hF
  have hnext : Includes (declarationStart ∪ part.closers) F := Includes.trans inferInstance hF
  unfold declarationRound
  refine .token_bind fun t => ?_
  split
  · exact .inl (hF.mem (by decide))
  · exact .inl (hF.mem (by decide))
  · exact .inl (hF.mem (by decide))
  · exact .inl (hF.mem (by decide))
  · exact .inr inferInstance

instance {Q : Hindsight (List (List Node))} [Includes declarationFollow F] (part : Part)
    (found : List (List Node)) : Opens H F Q (loop (declarationRound o call part) found) :=
  .loop inferInstance fun _ => inferInstance

instance (part : Part) : EndsInFrontOf H (loop (declarationRound o call part) []) part.closers :=
  ⟨.loop (S := .rounds declarationFollow (.inFrontOf part.closers)) (fun _ => .of_approaches)
    (fun _ => inferInstance) (consuming_declarationRound H.limit o part) (fun _ _ => id)
    (fun found _ _ _ hx hq _ => (inferInstance :
      Opens H declarationFollow .any (loop (declarationRound o call part) found)).token_mem
        hx hq trivial) []⟩

instance (part : Part) : EndsInFrontOf H (declarationList o call part) part.closers := by
  unfold declarationList
  constructor
  infer_instance

instance [Includes declarationFollow F] (part : Part) :
    Opens H F Q (declarationList o call part) := by
  unfold declarationList
  infer_instance

instance : Bridges H Q (block o call) := by
  unfold block
  infer_instance

instance [Includes declarationFollow F] : Opens H F Q (block o call) := by
  unfold block
  infer_instance

instance : Approaches H (.inFrontOf declarationFollow) (procedureDeclaration o call) := by
  unfold procedureDeclaration
  infer_instance

end Declarations

/-! ## Nested constructs -/

theorem bridgingCalls_nested (o : ParseOptions) (hlimit : H.limit = o.maxNesting) (levels : Nat) :
    BridgingCalls H (nested o levels) := by
  induction levels with
  | zero =>
    have (x : Nested) : Faulty H (nested o 0 x) := ⟨fun hx => nomatch hx⟩
    constructor <;> infer_instance
  | succ levels ih =>
    have : Reliable H.limit (nested o levels) := hlimit ▸ inferInstance
    exact {
      expression := inferInstanceAs (Bridges H .any (expression (nested o levels)))
      statement := inferInstanceAs (Bridges H .any (statement o (nested o levels)))
      type := inferInstanceAs (Bridges H .any (typeDenoter o (nested o levels)))
      procedure := inferInstanceAs (Approaches H (.inFrontOf declarationFollow)
        (procedureDeclaration o (nested o levels)))
      variantFields := inferInstanceAs (Approaches H .any (variantFieldList o (nested o levels)))
      opens_statement :=
        inferInstanceAs (Opens H statementStart .any (statement o (nested o levels))) }

/-! ## Compilation units -/

section Units

instance : Includes importStart importFollow := ⟨by decide⟩

instance : Includes declarationFollow importFollow := ⟨by decide⟩

instance : Includes importFollow noSeparator := ⟨by decide⟩

variable {Q : Hindsight Node}

instance : Approaches H Q unqualifiedImport := by
  unfold unqualifiedImport
  infer_instance

instance : Approaches H Q qualifiedImport := by
  unfold qualifiedImport
  infer_instance

instance : Approaches H (.inFrontOf importFollow) importClause := by
  unfold importClause
  infer_instance

instance : EndsInFrontOf H importList declarationFollow := by
  have : EndsInFrontOf H (whileAtAny importStart importClause) declarationFollow :=
    ⟨bridges_whileAtAny (F := importFollow) inferInstance inferInstance consumes_importClause
      inferInstance inferInstance inferInstance⟩
  unfold importList
  constructor
  infer_instance

instance : Opens H importFollow (.inFrontOf importFollow) importList := by
  have : Opens H importFollow (.inFrontOf importFollow) (whileAtAny importStart importClause) :=
    opens_whileAtAny inferInstance inferInstance inferInstance
  unfold importList
  infer_instance

instance : EndsInFrontOf H moduleHeader importFollow := by
  unfold moduleHeader
  constructor
  infer_instance

instance {Q : Hindsight Unit} (name : Node) : Bridges H Q (unitClosing name) := by
  have : Bridges H Q (ifAt .endOfFile (return ())
      (do unexpected (.token .endOfFile); skipTo unitEnd)) := .of_approaches
  unfold unitClosing
  infer_instance

variable {o : ParseOptions} [Reliable H.limit (outermost o)] [BridgingCalls H (outermost o)]

instance : Approaches H Q (definitionModule o) := by
  unfold definitionModule
  infer_instance

instance (kind : Kind) : Bridges H Q (programModule o kind) := by
  unfold programModule
  infer_instance

theorem approaches_unitRule (t : Token) : Approaches H Q (unitRule o t) := by
  have (kind : Kind) : Composed H.limit (programModule o kind) := by
    unfold programModule
    infer_instance
  unfold unitRule
  split <;> infer_instance

end Units

end Grammar

/-! ## Whole units -/

/-- Without the separator, a unit is read to the same tree, and nothing but the separator is
reported. -/
theorem exec_compilationUnit_of_apart {H : Omission} {o : ParseOptions}
    (hlimit : H.limit = o.maxNesting) {kind : UnitKind} {p p' q : Progress} {tree : Node}
    (hp : H.Apart p p') (hx : (compilationUnit o kind).exec p = (.ok tree, q)) (hq : q.IsClean) :
    ∃ q', (compilationUnit o kind).exec p' = (.ok tree, q') ∧ q'.queue.toList = [H.fault] ∧
      q.queue.stats.SameTallies q'.queue.stats := by
  have hmem : p.lookahead.token ∈ startOf kind := by
    refine Classical.byContradiction fun h => ?_
    rw [exec_compilationUnit_of_not_mem h] at hx
    cases hx
  have hunit := exec_compilationUnit_of_mem (o := o) hmem
  have hunit' := exec_compilationUnit_of_mem (o := o) (hp.lookahead_eq ▸ hmem)
  rw [hunit] at hx
  have : Reliable H.limit (outermost o) := hlimit ▸ inferInstance
  have : BridgingCalls H (outermost o) := bridgingCalls_nested o hlimit o.maxNesting
  obtain ⟨q', hx', hnear⟩ := (approaches_unitRule (Q := .any) _).run hp hx hq trivial
  refine ⟨q', hunit'.trans (hp.lookahead_eq ▸ hx'), ?_⟩
  -- The whole unit is read, so that its end is behind the gap.
  obtain ⟨_, hstart⟩ := hp.near.even
  obtain ⟨_, heven⟩ := hnear.even
  have hend := endsAtEnd_unitRule o _ _ _ _ hstart.closed_left hx
  have hrest : q.rest.length = 1 := by
    rw [Progress.rest, heven.closed_left.ahead_eq_nil_iff.2 hend]
    rfl
  cases hnear with
  | apart h =>
    cases h with
    | before s front hfront =>
      rw [hfront] at hrest
      simp at hrest
    | behind _ heven => exact ⟨heven.reported, heven.tallies⟩
  | «at» h =>
    rw [h.rest_left] at hrest
    simp at hrest

end Modula
