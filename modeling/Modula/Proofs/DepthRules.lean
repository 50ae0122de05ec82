import Modula.Proofs.Depth
import Modula.Proofs.YieldsRules

/-!
# The limit on nesting bounds the depth of trees

No rule puts more than ten levels on top of what it calls, links aside. So a construct that may open
so many levels answers a tree that is at most ten times as deep, and the unit around it adds a few
levels more. The height itself is not bounded by the limit: a row of selectors is as high as it is
long, and is not nested at all.
-/

namespace Modula

open Modula.Parser

/-- What the nested constructs answer has at most so many levels. -/
def ShallowCalls (d : Nat) (call : Call) : Prop := ∀ x, Shallow d (call x)

namespace Grammar

variable {d n : Nat}

/-! ## Names and sequences -/

theorem depth_empty_le : (Tree.empty : Node).depth ≤ n + 1 := Nat.succ_le_succ (Nat.zero_le n)

theorem depth_listNode_le {k : Kind} (hk : k.isLink = false) {parts : List Node}
    (h : ∀ t ∈ parts, t.depth ≤ n) : (listNode k parts).depth ≤ n + 1 := by
  unfold listNode
  split
  · exact depth_empty_le
  · exact Tree.depth_branch_le hk h

theorem shallow_ident (r : TokenSet) : Shallow 1 (ident r) :=
  .of_fits (yields_ident r) (by decide)

theorem shallow_identList (r : TokenSet) : Shallow 2 (identList r) :=
  .of_fits (yields_identList r) (by decide)

theorem shallow_qualident (r : TokenSet) : Shallow 2 (qualident r) :=
  .of_fits (yields_qualident r) (by decide)

theorem shallow_optionalAt {w : Token} {rule : Parser Node} (h : Shallow (n + 1) rule) :
    Shallow (n + 1) (optionalAt w rule) :=
  .ifAt (.skip fun _ => h) (.pure depth_empty_le)

theorem shallow_semicolonList (o : ParseOptions) (start closers : TokenSet) {item : Parser Node}
    (hi : Shallow n item) :
    Yields false (fun parts => ∀ t ∈ parts, t.depth ≤ n) (semicolonList o start closers item) := by
  have hround (found : List Node) :
      Yields false (fun r => (∀ t ∈ found, t.depth ≤ n) → r.Holds fun parts =>
        ∀ t ∈ parts, t.depth ≤ n) (semicolonRound o start closers item found) := by
    unfold semicolonRound
    refine hi.chain fun node hnode => ?_
    have hfound (h : ∀ t ∈ found, t.depth ≤ n) :
        ∀ t ∈ (if node.isEmpty then found else node :: found), t.depth ≤ n := by
      split
      · exact h
      · exact List.forall_mem_cons.2 ⟨hnode, h⟩
    refine .ifAt (.skip fun _ => .ifAtAny ?_ ?_) (.ifAtAny ?_ ?_)
    · exact .skip fun _ => .pure hfound
    · exact .pure hfound
    · exact .skip fun _ => .pure hfound
    · exact .pure hfound
  unfold semicolonList
  refine .map ((Yields.loop (fun _ => id) hround []).imp fun parts h => ?_)
  simpa using h (by simp)

theorem shallow_missingItems {c : Code} (hc : c.leavesGap = true) :
    Shallow (n + 1) (missingItems c) :=
  (Shallow.of_fits (s := ⟨[], false⟩) (yields_missingItems hc rfl) (by decide)).mono
    (Nat.le_add_left 1 n)

/-! ## Expressions -/

section

variable {call : Call}

theorem shallow_expressionList (h : ShallowCalls d call) :
    Shallow (d + 1) (expressionList call) :=
  .map ((Yields.separated (h .expression)).imp fun _ => Tree.depth_branch_le rfl)

theorem shallow_valueComponent (h : ShallowCalls d call) :
    Shallow (d + 1) (valueComponent call) := by
  refine (h .expression).chain fun low hlow => .ifAt (.skip fun _ => ?_) (.pure (by omega))
  refine (h .expression).chain fun high hhigh => .pure (Tree.depth_branch_le rfl ?_)
  simp [hlow, hhigh]

theorem shallow_caseLabelList (h : ShallowCalls d call) :
    Shallow (d + 2) (caseLabelList call) :=
  .map ((Yields.separated (shallow_valueComponent h)).imp fun _ => Tree.depth_branch_le rfl)

theorem shallow_structuredValue (h : ShallowCalls d call) :
    Shallow (d + 2) (structuredValue call) := by
  have hparts : Yields false (fun parts => ∀ t ∈ parts, t.depth ≤ d + 1)
      (ifAt .rBrace (return []) (separated .comma (valueComponent call))) :=
    .ifAt (.pure (by simp)) (.separated (shallow_valueComponent h))
  refine .skip fun _ => hparts.chain fun parts hp => .skip fun _ => .pure ?_
  exact Tree.depth_branch_le rfl hp

theorem shallow_actualParameters (h : ShallowCalls d call) :
    Shallow (d + 1) (actualParameters call) := by
  have hparts : Yields false (fun parts => ∀ t ∈ parts, t.depth ≤ d)
      (ifAt .rParen (return []) (separated .comma (call .expression))) :=
    .ifAt (.pure (by simp)) (.separated (h .expression))
  refine .skip fun _ => hparts.chain fun parts hp => .skip fun _ => .pure ?_
  exact Tree.depth_branch_le rfl hp

/-- A selector is no level of its own, but for its subscripts. -/
theorem shallow_selectorRound (h : ShallowCalls d call) (designator : Node) :
    Yields false (fun r => designator.depth ≤ d + 2 → r.Holds (·.depth ≤ d + 2))
      (selectorRound call designator) := by
  unfold selectorRound
  refine .skip fun t => ?_
  split
  · refine .skip fun _ => (shallow_ident _).chain fun field hf => .pure fun hd => ?_
    exact Tree.depth_link_le rfl hd (by simp; omega)
  · refine .skip fun _ => (shallow_expressionList h).chain fun subscripts hs => ?_
    exact .skip fun _ => .pure fun hd => Tree.depth_link_le rfl hd (by simp [hs])
  · exact .skip fun _ => .pure fun hd => Tree.depth_link_le rfl hd (by simp)
  · exact .pure id

theorem shallow_designator (h : ShallowCalls d call) : Shallow (d + 2) (designator call) := by
  refine (shallow_ident _).chain fun first hfirst => ?_
  exact (Yields.loop (fun _ => id) (shallow_selectorRound h) first).imp fun t ht => ht (by omega)

theorem shallow_designatorOrCall (h : ShallowCalls d call) :
    Shallow (d + 3) (designatorOrCall call) := by
  refine (shallow_designator h).chain fun designator hd => .ifAt ?_ (.pure (by omega))
  refine (shallow_actualParameters h).chain fun arguments ha => .pure ?_
  exact Tree.depth_branch_le rfl (by simp; omega)

theorem shallow_simpleFactor (h : ShallowCalls d call) : Shallow (d + 3) (simpleFactor call) := by
  unfold simpleFactor
  refine .skip fun t => ?_
  split
  · next k _ =>
    have hleaf : Shallow 1 (leaf k) := fun p u q hm => by
      cases hm
      exact ⟨Progress.Steps.gaps_le (.step (.advance p)), fun _ => Nat.le_refl 1⟩
    exact hleaf.mono (by omega)
  · split
    · exact (shallow_structuredValue h).mono (by omega)
    · split
      · refine .skip fun _ => (h .expression).chain fun inner hi => ?_
        exact .skip fun _ => .pure (by omega)
      · split
        · exact shallow_designatorOrCall h
        · exact .skip fun _ => .skip fun _ => .pure depth_empty_le

theorem shallow_factor (h : ShallowCalls d call) : Shallow (d + 4) (factor call) := by
  refine (shallow_simpleFactor h).chain fun value hv => ?_
  refine .ifAt (.skip fun _ => ?_) (.pure (by omega))
  refine (shallow_qualident _).chain fun target ht => .pure (Tree.depth_branch_le rfl ?_)
  simp
  omega

theorem shallow_simpleTerm (h : ShallowCalls d call) : Shallow (d + 5) (simpleTerm call) := by
  refine .ifAt (.skip fun _ => ?_) ((shallow_factor h).mono (by omega))
  exact (shallow_factor h).chain fun operand ho => .pure (Tree.depth_branch_le rfl (by simp [ho]))

/-- An operator of a chain is no level of its own. -/
theorem shallow_operatorRound {kind? : Token → Option Kind}
    (hkind : ∀ t k, kind? t = some k → k.isLink = true) {operand : Parser Node}
    (ho : Shallow n operand) (left : Node) :
    Yields false (fun r => left.depth ≤ n + 1 → r.Holds (·.depth ≤ n + 1))
      (operatorRound kind? operand left) := by
  unfold operatorRound
  refine .skip fun t => ?_
  split
  · exact .pure id
  · next k hk =>
    refine .skip fun _ => ho.chain fun right hright => .pure fun hleft => ?_
    exact Tree.depth_link_le (hkind t k hk) hleft (by simp [hright])

theorem isLink_additiveKind? (t : Token) (k : Kind) (h : additiveKind? t = some k) :
    k.isLink = true := by
  unfold additiveKind? at h
  split at h <;> cases h <;> rfl

theorem isLink_multiplicativeKind? (t : Token) (k : Kind) (h : multiplicativeKind? t = some k) :
    k.isLink = true := by
  unfold multiplicativeKind? at h
  split at h <;> cases h <;> rfl

theorem isLink_relationKind? (t : Token) (k : Kind) (h : relationKind? t = some k) :
    k.isLink = false := by
  unfold relationKind? at h
  split at h <;> cases h <;> rfl

theorem shallow_term (h : ShallowCalls d call) : Shallow (d + 6) (term call) := by
  refine (shallow_simpleTerm h).chain fun first hfirst => ?_
  have hround := shallow_operatorRound isLink_multiplicativeKind? (shallow_simpleTerm h)
  exact (Yields.loop (fun _ => id) hround first).imp fun t ht => ht (by omega)

theorem shallow_signedTerm (h : ShallowCalls d call) : Shallow (d + 7) (signedTerm call) := by
  unfold signedTerm
  refine .skip fun t => ?_
  have hterm := shallow_term h
  split
  · refine .skip fun _ => hterm.chain fun operand ho => .pure ?_
    exact Tree.depth_branch_le rfl (by simp [ho])
  · exact .skip fun _ => hterm.mono (by omega)
  · exact hterm.mono (by omega)

theorem shallow_simpleExpression (h : ShallowCalls d call) :
    Shallow (d + 7) (simpleExpression call) := by
  refine (shallow_signedTerm h).chain fun first hfirst => ?_
  have hround := shallow_operatorRound isLink_additiveKind? (shallow_term h)
  exact (Yields.loop (fun _ => id) hround first).imp fun t ht => ht hfirst

theorem shallow_expression (h : ShallowCalls d call) : Shallow (d + 8) (expression call) := by
  refine (shallow_simpleExpression h).chain fun left hleft => .skip fun t => ?_
  split
  · exact .pure (by omega)
  · next k hk =>
    refine .skip fun _ => (shallow_simpleExpression h).chain fun right hright => .pure ?_
    exact Tree.depth_branch_le (isLink_relationKind? t k hk) (by simp [hleft, hright])

end

/-! ## Types -/

section

variable {o : ParseOptions} {call : Call}

theorem shallow_enumType : Shallow 3 enumType := .of_fits yields_enumType (by decide)

theorem shallow_aliasType : Shallow 3 aliasType := by
  refine .skip fun _ => .skip fun _ => (shallow_qualident _).chain fun base hb => .pure ?_
  exact Tree.depth_branch_le rfl (by simp [hb])

theorem shallow_setType : Shallow 4 setType := by
  have hbase : Shallow 3 (ifAt .lParen enumType (qualident typeFollow)) :=
    .ifAt shallow_enumType ((shallow_qualident _).mono (by omega))
  refine .skip fun _ => .skip fun _ => hbase.chain fun base hb => .pure ?_
  exact Tree.depth_branch_le rfl (by simp [hb])

theorem shallow_procedureType : Shallow 6 procedureType := by
  have hparameters : Shallow 5 (optionalAt .lParen formalTypeList) :=
    shallow_optionalAt (.of_fits yields_formalTypeList (by decide))
  refine .skip fun _ => hparameters.chain fun parameters hp => ?_
  refine (shallow_optionalAt (shallow_qualident _)).chain fun result hr => .pure ?_
  exact Tree.depth_branch_le rfl (by simp; omega)

theorem shallow_subrangeType (h : ShallowCalls d call) : Shallow (d + 3) (subrangeType call) := by
  refine .skip fun _ => (h .expression).chain fun low hl => .skip fun _ => ?_
  refine (h .expression).chain fun high hh => .skip fun _ => ?_
  refine (shallow_optionalAt (shallow_qualident _)).chain fun base hb => .pure ?_
  exact Tree.depth_branch_le rfl (by simp; omega)

theorem shallow_arrayType (h : ShallowCalls d call) : Shallow (d + 2) (arrayType call) := by
  refine .skip fun _ => (shallow_expressionList h).chain fun dimensions hd => .skip fun _ => ?_
  refine (h .type).chain fun element he => .pure (Tree.depth_branch_le rfl ?_)
  simp
  omega

theorem shallow_pointerType (h : ShallowCalls d call) : Shallow (d + 1) (pointerType call) := by
  refine .skip fun _ => .skip fun _ => (h .type).chain fun target ht => .pure ?_
  exact Tree.depth_branch_le rfl (by simp [ht])

theorem shallow_fieldList (h : ShallowCalls d call) : Shallow (d + 3) (fieldList o call) := by
  have hfields : Shallow (d + 3) (fields call) := by
    refine (shallow_identList _).chain fun names hn => .skip fun _ => ?_
    refine (h .type).chain fun type ht => .pure (Tree.depth_branch_le rfl ?_)
    simp
    omega
  unfold fieldList
  refine .skip fun t => ?_
  dsimp only
  split
  · exact hfields
  · split
    · exact (h .variantFields).mono (by omega)
    · exact .skip fun _ => .pure depth_empty_le

theorem shallow_fieldListSequence (h : ShallowCalls d call) :
    Shallow (d + 4) (fieldListSequence o call) := by
  refine .ifAtAny (shallow_missingItems rfl) ?_
  refine (shallow_semicolonList o _ _ (shallow_fieldList h)).chain fun lists hl => .pure ?_
  exact depth_listNode_le rfl hl

theorem shallow_variant (h : ShallowCalls d call) : Shallow (d + 5) (variant o call) := by
  refine (shallow_caseLabelList h).chain fun labels hl => .skip fun _ => ?_
  refine (shallow_fieldListSequence h).chain fun fields hf => .pure (Tree.depth_branch_le rfl ?_)
  simp
  omega

theorem shallow_variantFieldList (h : ShallowCalls d call) :
    Shallow (d + 7) (variantFieldList o call) := by
  have htag : Shallow 1 (ifAtAny identStart (leaf .ident) (return .empty)) :=
    .of_fits (s := Slot.ident.optional)
      (.ifAtAny (yields_leaf rfl (by decide)) (.pure (.absent List.mem_cons_self))) (by decide)
  refine .skip fun _ => htag.chain fun tag ht => .skip fun _ => ?_
  refine (shallow_qualident _).chain fun tagType htype => .skip fun _ => .skip fun _ => ?_
  refine (Yields.separated (shallow_variant h)).chain fun variants hv => ?_
  have hlist := Tree.depth_branch_le (k := .variantList) rfl hv
  refine (shallow_optionalAt (shallow_fieldListSequence h)).chain fun otherwise ho => ?_
  refine .skip fun _ => .pure (Tree.depth_branch_le rfl ?_)
  simp
  omega

theorem shallow_recordBody (h : ShallowCalls d call) : Shallow (d + 5) (recordBody o call) := by
  have hbase : Shallow 2 recordBase := by
    refine .ifAt (.skip fun _ => ?_) (.pure depth_empty_le)
    exact (shallow_qualident _).chain fun base hb => .skip fun _ => .pure hb
  have hfields := shallow_fieldListSequence (o := o) h
  unfold recordBody
  split
  · exact hfields.chain fun fields hf => .pure (Tree.depth_branch_le rfl (by simp [hf]))
  · refine hbase.chain fun base hb => hfields.chain fun fields hf => .pure ?_
    exact Tree.depth_branch_le rfl (by simp; omega)

theorem shallow_typeDenoter (h : ShallowCalls d call) : Shallow (d + 8) (typeDenoter o call) := by
  unfold typeDenoter
  refine .skip fun t => ?_
  split
  · exact shallow_aliasType.mono (by omega)
  · exact (shallow_subrangeType h).mono (by omega)
  · exact shallow_enumType.mono (by omega)
  · exact shallow_setType.mono (by omega)
  · exact (shallow_arrayType h).mono (by omega)
  · refine .skip fun _ => (shallow_recordBody h).chain fun node hn => .skip fun _ => ?_
    exact .pure (by omega)
  · exact (shallow_pointerType h).mono (by omega)
  · exact shallow_procedureType.mono (by omega)
  · split
    · exact (shallow_qualident _).mono (by omega)
    · exact .skip fun _ => .pure depth_empty_le

end

/-! ## Statements -/

section

variable {o : ParseOptions} {call : Call}

theorem shallow_statementSequence (h : ShallowCalls d call) :
    Shallow (d + 1) (statementSequence o call) := by
  refine .ifAtAny (shallow_missingItems rfl) ?_
  refine (shallow_semicolonList o _ _ (h .statement)).chain fun statements hs => .pure ?_
  exact depth_listNode_le rfl hs

theorem shallow_assignmentOrCall (h : ShallowCalls d call) :
    Shallow (d + 3) (assignmentOrCall call) := by
  refine (shallow_designator h).chain fun designator hd => .skip fun t => ?_
  split
  · refine .skip fun _ => (h .expression).chain fun value hv => .pure ?_
    exact Tree.depth_branch_le rfl (by simp; omega)
  · refine (shallow_actualParameters h).chain fun arguments ha => .pure ?_
    exact Tree.depth_branch_le rfl (by simp; omega)
  · have hempty : (Tree.empty : Node).depth ≤ d + 1 := depth_empty_le
    exact .pure (Tree.depth_branch_le rfl (by simp; omega))

theorem shallow_thenBranch (h : ShallowCalls d call) : Shallow (d + 1) (thenBranch o call) := by
  refine .skip fun found => ?_
  split
  · exact shallow_statementSequence h
  · exact .pure depth_empty_le

theorem shallow_elseBranch (h : ShallowCalls d call) : Shallow (d + 1) (elseBranch o call) :=
  shallow_optionalAt (shallow_statementSequence h)

theorem shallow_elsifBranch (h : ShallowCalls d call) : Shallow (d + 2) (elsifBranch o call) := by
  refine .skip fun _ => (h .expression).chain fun condition hc => ?_
  refine (shallow_thenBranch h).chain fun body hb => .pure (Tree.depth_branch_le rfl ?_)
  simp
  omega

theorem shallow_ifStatement (h : ShallowCalls d call) : Shallow (d + 4) (ifStatement o call) := by
  refine .skip fun _ => (h .expression).chain fun condition hc => ?_
  refine (shallow_thenBranch h).chain fun body hb => ?_
  refine (Yields.whileAtAny (shallow_elsifBranch h)).chain fun elsifs he => ?_
  have hlist := depth_listNode_le (k := .elsifList) rfl he
  refine (shallow_elseBranch h).chain fun otherwise ho => .skip fun _ => .pure ?_
  exact Tree.depth_branch_le rfl (by simp; omega)

theorem shallow_caseBranch (h : ShallowCalls d call) : Shallow (d + 3) (caseBranch o call) := by
  refine (shallow_caseLabelList h).chain fun labels hl => .skip fun _ => ?_
  refine (shallow_statementSequence h).chain fun body hb => .pure (Tree.depth_branch_le rfl ?_)
  simp
  omega

theorem shallow_caseRound (h : ShallowCalls d call) (found : List Node) :
    Yields false (fun r => (∀ t ∈ found, t.depth ≤ d + 3) →
      r.Holds fun branches => ∀ t ∈ branches, t.depth ≤ d + 3) (caseRound o call found) := by
  have hbranch : Yields false (fun r => (∀ t ∈ found, t.depth ≤ d + 3) →
      r.Holds fun branches => ∀ t ∈ branches, t.depth ≤ d + 3)
      (do return Round.more ((← caseBranch o call) :: found)) :=
    (shallow_caseBranch h).chain fun branch hb => .pure fun hfound =>
      List.forall_mem_cons.2 ⟨hb, hfound⟩
  unfold caseRound
  refine .ifAt (.skip fun _ => hbranch) ?_
  split
  · exact .ifAtAny hbranch (.pure id)
  · exact .pure id

theorem shallow_caseStatement (h : ShallowCalls d call) :
    Shallow (d + 5) (caseStatement o call) := by
  refine .skip fun _ => (h .expression).chain fun selector hs => .skip fun _ => ?_
  refine (Yields.loop (fun _ => id) (shallow_caseRound h) []).chain fun branches hb => ?_
  have hlist := depth_listNode_le (k := .caseList) rfl
    fun t ht => hb (by simp) t (List.mem_reverse.1 ht)
  refine (shallow_elseBranch h).chain fun otherwise ho => .skip fun _ => .pure ?_
  exact Tree.depth_branch_le rfl (by simp; omega)

theorem shallow_loopStatement (h : ShallowCalls d call) :
    Shallow (d + 2) (loopStatement o call) := by
  refine .skip fun _ => (shallow_statementSequence h).chain fun body hb => .skip fun _ => .pure ?_
  exact Tree.depth_branch_le rfl (by simp [hb])

theorem shallow_whileStatement (h : ShallowCalls d call) :
    Shallow (d + 2) (whileStatement o call) := by
  refine .skip fun _ => (h .expression).chain fun condition hc => .skip fun _ => ?_
  refine (shallow_statementSequence h).chain fun body hb => .skip fun _ => .pure ?_
  exact Tree.depth_branch_le rfl (by simp; omega)

theorem shallow_repeatStatement (h : ShallowCalls d call) :
    Shallow (d + 2) (repeatStatement o call) := by
  refine .skip fun _ => (shallow_statementSequence h).chain fun body hb => .skip fun _ => ?_
  refine (h .expression).chain fun condition hc => .pure (Tree.depth_branch_le rfl ?_)
  simp
  omega

theorem shallow_forStatement (h : ShallowCalls d call) :
    Shallow (d + 3) (forStatement o call) := by
  refine .skip fun _ => (shallow_ident _).chain fun control hcontrol => .skip fun _ => ?_
  refine (h .expression).chain fun first hfirst => .skip fun _ => ?_
  refine (h .expression).chain fun last hlast => ?_
  have hstep : Shallow (d + 1) (optionalAt .kwBy (call .expression)) :=
    shallow_optionalAt ((h .expression).mono (by omega))
  refine hstep.chain fun step hstep => .skip fun _ => ?_
  refine (shallow_statementSequence h).chain fun body hb => .skip fun _ => .pure ?_
  exact Tree.depth_branch_le rfl (by simp; omega)

theorem shallow_returnStatement (h : ShallowCalls d call) :
    Shallow (d + 2) (returnStatement call) := by
  have hvalue : Shallow (d + 1) (ifAtAny expressionStart (call .expression) (return .empty)) :=
    .ifAtAny ((h .expression).mono (by omega)) (.pure depth_empty_le)
  refine .skip fun _ => hvalue.chain fun value hv => .pure ?_
  exact Tree.depth_branch_le rfl (by simp [hv])

theorem shallow_of_statementRule? (h : ShallowCalls d call) {t : Token} {rule : Parser Node}
    (hrule : statementRule? o call t = some rule) : Shallow (d + 5) rule := by
  unfold statementRule? at hrule
  split at hrule
  · cases hrule; exact (shallow_ifStatement h).mono (by omega)
  · cases hrule; exact shallow_caseStatement h
  · cases hrule; exact (shallow_loopStatement h).mono (by omega)
  · cases hrule; exact (shallow_whileStatement h).mono (by omega)
  · cases hrule; exact (shallow_repeatStatement h).mono (by omega)
  · cases hrule; exact (shallow_forStatement h).mono (by omega)
  · cases hrule; exact (shallow_returnStatement h).mono (by omega)
  · cases hrule; exact .skip fun _ => .pure (Tree.depth_branch_le rfl (by simp))
  · split at hrule <;> cases hrule
    exact (shallow_assignmentOrCall h).mono (by omega)

theorem shallow_statement (h : ShallowCalls d call) : Shallow (d + 5) (statement o call) := by
  unfold statement
  refine .skip fun t => ?_
  split
  · next rule hrule =>
    exact (shallow_of_statementRule? h hrule).chain fun node hn => .skip fun _ => .pure hn
  · exact .skip fun _ => .pure depth_empty_le

end

/-! ## Declarations -/

section

variable {o : ParseOptions} {call : Call}

theorem shallow_constantDefinition (h : ShallowCalls d call) :
    Shallow (d + 2) (constantDefinition call) := by
  refine (shallow_ident _).chain fun name hn => .skip fun _ => ?_
  refine (h .expression).chain fun value hv => .skip fun _ => .pure ?_
  exact Tree.depth_branch_le rfl (by simp; omega)

theorem shallow_typeDefinition (h : ShallowCalls d call) (part : Part) :
    Shallow (d + 2) (typeDefinition call part) := by
  have hopaque : Shallow (d + 1) (opaqueType part) := by
    intro p t q hm
    have hsteps := Composed.steps (n := 0) inferInstance hm
    refine ⟨hsteps.gaps_le, fun _ => ?_⟩
    cases part <;> cases hm <;> exact Tree.depth_branch_le rfl (by simp)
  have hdenoter : Shallow (d + 1) (ifAt .kwOpaque (opaqueType part) (call .type)) :=
    .ifAt hopaque ((h .type).mono (by omega))
  refine (shallow_ident _).chain fun name hn => .skip fun _ => ?_
  refine hdenoter.chain fun denoter hd => .skip fun _ => .pure ?_
  exact Tree.depth_branch_le rfl (by simp; omega)

theorem shallow_variableDeclaration (h : ShallowCalls d call) :
    Shallow (d + 3) (variableDeclaration call) := by
  refine (shallow_identList _).chain fun names hn => .skip fun _ => ?_
  refine (h .type).chain fun type ht => .skip fun _ => .pure ?_
  exact Tree.depth_branch_le rfl (by simp; omega)

theorem shallow_declarationSection {item : Parser Node} (hi : Shallow n item) :
    Yields false (fun ds => ∀ t ∈ ds, t.depth ≤ n) (declarationSection item) :=
  .skip fun _ => .whileAtAny (hi.chain fun _ hnode => .skip fun _ => .pure hnode)

/-- A procedure of a definition module is no deeper than its header. -/
theorem shallow_procedureIn (h : ShallowCalls d call) (part : Part) :
    Shallow (d + 7) (procedureIn o call part) := by
  cases part with
  | definitions =>
    exact (Shallow.of_fits (n := 7) (yields_procedureDefinition o) (by decide)).mono (by omega)
  | declarations => exact (h .procedure).mono (by omega)

theorem shallow_declarationRound (h : ShallowCalls d call) (part : Part)
    (found : List (List Node)) :
    Yields false (fun r => (∀ ds ∈ found, ∀ t ∈ ds, t.depth ≤ d + 7) →
        r.Holds fun found => ∀ ds ∈ found, ∀ t ∈ ds, t.depth ≤ d + 7)
      (declarationRound o call part found) := by
  have hround {n : Nat} {item : Parser Node} (hi : Shallow n item) (hn : n ≤ d + 7) :
      Yields false (fun r : Round (List (List Node)) =>
        (∀ ds ∈ found, ∀ t ∈ ds, t.depth ≤ d + 7) →
          r.Holds fun found => ∀ ds ∈ found, ∀ t ∈ ds, t.depth ≤ d + 7)
        (do return Round.more ((← declarationSection item) :: found)) :=
    (shallow_declarationSection (hi.mono hn)).chain fun ds hds => .pure fun hfound =>
      List.forall_mem_cons.2 ⟨hds, hfound⟩
  unfold declarationRound
  refine .skip fun t => ?_
  split
  · exact hround (shallow_constantDefinition h) (by omega)
  · exact hround (shallow_typeDefinition h part) (by omega)
  · exact hround (shallow_variableDeclaration h) (by omega)
  · refine (shallow_procedureIn h part).chain fun t ht => .pure fun hfound => ?_
    exact List.forall_mem_cons.2 ⟨by simpa using ht, hfound⟩
  · exact .ifAtAny (.pure id) (.skip fun _ => .pure id)

theorem shallow_declarationList (h : ShallowCalls d call) (part : Part) :
    Shallow (d + 8) (declarationList o call part) := by
  have hloop := Yields.loop (fun _ => id) (shallow_declarationRound (o := o) h part) []
  refine hloop.chain fun sections hs => ?_
  refine .pure (depth_listNode_le (by cases part <;> rfl) fun t ht => ?_)
  obtain ⟨ds, hds, ht⟩ := List.mem_flatten.1 ht
  exact hs (by simp) ds (List.mem_reverse.1 hds) t ht

theorem shallow_block (h : ShallowCalls d call) : Shallow (d + 9) (block o call) := by
  refine (shallow_declarationList h .declarations).chain fun declarations hd => ?_
  refine (shallow_optionalAt (shallow_statementSequence h)).chain fun body hb => ?_
  exact .skip fun _ => .pure (Tree.depth_branch_le rfl (by simp; omega))

theorem shallow_procedureDeclaration (h : ShallowCalls d call) :
    Shallow (d + 10) (procedureDeclaration o call) := by
  refine Yields.chain (yields_procedureHeader o) fun header hh => .skip fun _ => ?_
  have hname : header.name.depth ≤ 1 := hh.1.depth_le (by decide)
  have hparameters : header.parameters.depth ≤ 6 := hh.2.1.depth_le (by decide)
  have hresult : header.result.depth ≤ 2 := hh.2.2.depth_le (by decide)
  refine (shallow_block h).chain fun body hb => .skip fun _ => .skip fun _ => .skip fun _ => ?_
  exact .pure (Tree.depth_branch_le rfl (by simp; omega))

end

/-! ## Nested constructs and compilation units -/

/-- One level of nesting is at most ten levels of the tree. -/
theorem shallow_nestedRule {o : ParseOptions} {call : Call} (h : ShallowCalls d call) :
    ShallowCalls (d + 10) (nestedRule o call) := by
  intro x
  cases x with
  | expression => exact (shallow_expression h).mono (by omega)
  | statement => exact (shallow_statement h).mono (by omega)
  | type => exact (shallow_typeDenoter h).mono (by omega)
  | procedure => exact shallow_procedureDeclaration h
  | variantFields => exact (shallow_variantFieldList h).mono (by omega)

theorem shallow_nested (o : ParseOptions) (levels : Nat) :
    ShallowCalls (10 * levels) (nested o levels) := by
  induction levels with
  | zero =>
    intro x p t q hm
    cases hm
  | succ levels ih => exact shallow_nestedRule ih

theorem shallow_definitionModule (o : ParseOptions) :
    Shallow (10 * o.maxNesting + 9) (definitionModule o) := by
  refine .skip fun _ => Yields.chain yields_moduleHeader fun name hn => ?_
  have hname : name.depth ≤ 1 := hn.depth_le (by decide)
  refine Yields.chain yields_importList fun imports hi => ?_
  have himports : imports.depth ≤ 4 := hi.depth_le (by decide)
  refine (shallow_declarationList (shallow_nested o _) .definitions).chain fun ds hd => ?_
  refine .skip fun _ => .skip fun _ => .pure (Tree.depth_branch_le rfl ?_)
  simp
  omega

theorem shallow_programModule (o : ParseOptions) {kind : Kind} (hk : kind.isLink = false) :
    Shallow (10 * o.maxNesting + 10) (programModule o kind) := by
  refine Yields.chain yields_moduleHeader fun name hn => ?_
  have hname : name.depth ≤ 1 := hn.depth_le (by decide)
  refine Yields.chain yields_importList fun imports hi => ?_
  have himports : imports.depth ≤ 4 := hi.depth_le (by decide)
  refine (shallow_block (shallow_nested o _)).chain fun body hb => .skip fun _ => .pure ?_
  exact Tree.depth_branch_le hk (by simp; omega)

theorem shallow_compilationUnit (o : ParseOptions) (kind : UnitKind) :
    Shallow (10 * o.maxNesting + 10) (compilationUnit o kind) := by
  unfold compilationUnit
  refine .skip fun first => ?_
  split
  · split
    · exact (shallow_definitionModule o).mono (by omega)
    · exact .skip fun _ => shallow_programModule o rfl
    · exact shallow_programModule o rfl
  · intro p t q hm
    cases hm

end Grammar

/-! ## The tree of a parse -/

/-- The source of a program with a row of `^` behind a variable. -/
def dereferenced (n : Nat) : String :=
  "MODULE m; BEGIN x := a" ++ String.ofList (List.replicate n '^') ++ " END m."

/-- Selectors in a row are not nested, but each is a node on top of the one before. -/
theorem height_exceeds_nesting :
    ∃ out, parse { maxNesting := 2 } .any (dereferenced 60) = .ok out ∧
      16 * (2 + 1) < out.tree.height := by
  have hheight : (parse { maxNesting := 2 } .any (dereferenced 60)).toOption.any
      (fun out => 16 * (2 + 1) < out.tree.height) = true := by decide +kernel
  cases hp : parse { maxNesting := 2 } .any (dereferenced 60) with
  | error e =>
    rw [hp] at hheight
    cases hheight
  | ok out =>
    rw [hp] at hheight
    exact ⟨out, rfl, of_decide_eq_true hheight⟩

/-- The limit on nesting bounds the tree but for the links in it. A path of the tree has at most
sixteen nodes for each level that may be opened, and as many for the unit around them, where links
that the path follows into their first part do not count. So the height exceeds this bound by no
more than the number of links, and not at all in a tree without them, however long the source is. -/
theorem depth_of_parse (o : ParseOptions) (kind : UnitKind) (text : String) (out : ParseOutput)
    (h : parse o kind text = .ok out) :
    out.tree.depth ≤ 16 * (o.maxNesting + 1) ∧
      out.tree.height ≤ 16 * (o.maxNesting + 1) + out.tree.links := by
  obtain ⟨p, hx, -⟩ := exec_of_parse_eq_ok h
  have hdepth : out.tree.depth ≤ 10 * o.maxNesting + 10 :=
    (Grammar.shallow_compilationUnit o kind _ _ _ hx).2 nofun
  have hheight := out.tree.height_le
  omega

/-- A program with selectors in a row keeps to the bound. -/
theorem depth_of_dereferenced :
    ∃ out, parse { maxNesting := 2 } .any (dereferenced 60) = .ok out ∧
      out.tree.depth ≤ 48 ∧ out.tree.height ≤ 48 + out.tree.links := by
  have hok : (parse { maxNesting := 2 } .any (dereferenced 60)).isOk = true := by decide +kernel
  cases hp : parse { maxNesting := 2 } .any (dereferenced 60) with
  | error e =>
    rw [hp] at hok
    cases hok
  | ok out => exact ⟨out, rfl, depth_of_parse _ _ _ out hp⟩

end Modula
