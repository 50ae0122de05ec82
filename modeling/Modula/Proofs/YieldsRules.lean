import Modula.Proofs.Outcome
import Modula.Proofs.Yields

/-!
# The trees of the rules

Every rule of the grammar answers a tree of the documented shape, the placeholder standing where
something was missed. The nested constructs are a parameter of the rules again; what is expected of
them is `Shaping`, and an induction on the number of levels shows that they meet it.
-/

namespace Modula

open Modula.Parser

/-- Where a nested construct stands in the tree. -/
def Nested.slot : Nested → Slot
  | expression => .expression
  | statement =>
    .of [.assignment, .procedureCall, .ifStatement, .caseStatement, .loopStatement,
      .whileStatement, .repeatStatement, .forStatement, .returnStatement, .exitStatement]
  | type => .type
  | procedure => .filled [.procedureDeclaration]
  | variantFields => .of [.variantFieldList]

/-- The nested constructs answer trees of the right shape. -/
def Shaping (g : Bool) (call : Call) : Prop := ∀ x : Nested, Yields g (Fits g x.slot) (call x)

namespace Grammar

variable {g : Bool}

/-! ## Names and sequences -/

theorem yields_leaf {k : Kind} {s : Slot} (hk : shapeOf k = .terminal) (hs : k ∈ s.kinds) :
    Yields g (Fits g s) (leaf k) := by
  unfold leaf
  exact .skip fun x => .pure (.terminal x hk hs)

theorem yields_ident (r : TokenSet) : Yields g (Fits g .ident) (ident r) := by
  apply Yields.ifAtAny (yields_leaf rfl (by decide))
  apply (Yields.unexpected _).bind
  intro _
  apply Yields.skip
  intro _
  apply Yields.pure
  intro hg
  exact Fits.gap rfl hg

theorem fits_filter {kinds : List Kind} {parts : List Node}
    (h : ∀ t ∈ parts, Fits g (.of kinds) t) :
    ∀ t ∈ parts.filter (!·.isEmpty), Fits g (.filled kinds) t := by
  intro t ht
  obtain ⟨hmem, hne⟩ := List.mem_filter.1 ht
  exact (h t hmem).filled (by simpa using hne)

theorem yields_identList (r : TokenSet) : Yields g (Fits g .identList) (identList r) := by
  unfold identList
  apply (Yields.separated (yields_ident _)).bind
  intro idents
  apply Yields.pure
  intro h
  exact .row rfl (by decide) (fits_filter h)

theorem yields_optionalAt {w : Token} {s : Slot} {rule : Parser Node}
    (h : Yields g (Fits g s) rule) : Yields g (Fits g s.optional) (optionalAt w rule) := by
  refine .ifAt ?_ (.pure (.absent (List.mem_cons_self ..)))
  apply Yields.skip
  intro _
  apply h.imp
  intro t ht
  refine ht.mono ?_ (fun h => by cases h)
  exact fun k hk => List.mem_cons_of_mem _ hk

theorem yields_qualidentRound (r : TokenSet) (parts : List Node) :
    Yields g (fun x => (∀ t ∈ parts, Fits g (.filled [.ident]) t) →
      x.Holds fun parts => ∀ t ∈ parts, Fits g (.filled [.ident]) t) (qualidentRound r parts) := by
  refine .ifAt ?_ (.pure id)
  apply Yields.skip
  intro _
  apply (yields_ident r).bind
  intro part
  split
  · exact .pure fun _ h => h
  · next hne =>
    apply Yields.pure
    intro hpart h
    refine List.forall_mem_cons.2 ⟨?_, h⟩
    exact Fits.filled hpart (by simpa using hne)

theorem yields_qualident (r : TokenSet) : Yields g (Fits g .qualident) (qualident r) := by
  unfold qualident
  apply (yields_ident r).bind
  intro first
  split
  · exact .pure fun hfirst => hfirst.within rfl
  · next hne =>
    refine .ifAt ?_ (.pure fun hfirst => hfirst.within rfl)
    apply (Yields.loop (fun _ => id) (yields_qualidentRound r) [first]).bind
    intro parts
    refine .pure fun hparts hfirst => .row rfl (by decide) ?_
    have hall := hparts (by simpa using Fits.filled hfirst (by simpa using hne))
    simpa using hall

/-- A list of parts; without parts, a gap. -/
theorem fits_listNode {k : Kind} {slot : Slot} {parts : List Node} (hk : shapeOf k = .row slot)
    (h : ∀ t ∈ parts, Fits g slot t) (hne : g = true → parts ≠ []) :
    Fits g (.of [k]) (listNode k parts) := by
  unfold listNode
  split
  · next hnil =>
    apply Fits.gap rfl
    cases g with
    | false => rfl
    | true => exact absurd (List.isEmpty_iff.1 hnil) (hne rfl)
  · exact .row hk (List.mem_singleton_self k) h

/-- A list of parts that may be absent. -/
theorem fits_optionalListNode {k : Kind} {s : Slot} {parts : List Node}
    (hk : shapeOf k = .row s) (h : ∀ t ∈ parts, Fits g s t) :
    Fits g (.optional (.of [k])) (listNode k parts) := by
  unfold listNode
  split
  · exact .absent (List.mem_cons_self ..)
  · exact .row hk (List.mem_cons_of_mem _ (List.mem_singleton_self k)) h

/-- A round adds its part unless that is a gap. -/
theorem yields_semicolonRound {kinds : List Kind} (hkinds : .empty ∉ kinds) (o : ParseOptions)
    (start closers : TokenSet) {item : Parser Node} (hi : Yields g (Fits g (.of kinds)) item)
    (found : List Node) :
    Yields g (fun x => (∀ t ∈ found, Fits g (.filled kinds) t) →
        x.Holds fun parts => (∀ t ∈ parts, Fits g (.filled kinds) t) ∧ (g = true → parts ≠ []))
      (semicolonRound o start closers item found) := by
  have hfound {node : Node} (hnode : Fits g (.of kinds) node)
      (h : ∀ t ∈ found, Fits g (.filled kinds) t) :
      (∀ t ∈ (if node.isEmpty then found else node :: found), Fits g (.filled kinds) t) ∧
        (g = true → (if node.isEmpty then found else node :: found) ≠ []) := by
    by_cases he : node.isEmpty = true
    · rw [if_pos he]
      refine ⟨h, ?_⟩
      rintro rfl
      rcases hnode.1 with hk | ⟨-, -, hg⟩
      · rw [eq_of_beq he] at hk
        exact absurd hk hkinds
      · cases hg
    · rw [if_neg he]
      refine ⟨List.forall_mem_cons.2 ⟨hnode.filled (by simpa using he), h⟩, fun _ => ?_⟩
      exact List.cons_ne_nil _ _
  unfold semicolonRound
  apply hi.bind
  intro node
  refine .ifAt ?_ (.ifAtAny ?_ ?_)
  · apply Yields.skip
    intro semicolon
    refine .ifAtAny ?_ ?_
    · exact .skip fun _ => .pure hfound
    · exact .pure hfound
  · exact .skip fun _ => .pure hfound
  · exact .pure hfound

theorem yields_semicolonList {kinds : List Kind} (hkinds : .empty ∉ kinds) (o : ParseOptions)
    (start closers : TokenSet) {item : Parser Node} (hi : Yields g (Fits g (.of kinds)) item) :
    Yields g (fun parts => (∀ t ∈ parts, Fits g (.filled kinds) t) ∧ (g = true → parts ≠ []))
      (semicolonList o start closers item) := by
  unfold semicolonList
  refine .map (.imp (.loop (fun _ h => h.1)
    (yields_semicolonRound hkinds o start closers hi) []) fun parts h => ?_)
  simpa using h (by simp)

/-- An empty sequence is reported, and leaves a gap. -/
theorem yields_missingItems {c : Code} (hc : c.leavesGap = true) {s : Slot}
    (hs : s.isFilled = false) : Yields g (Fits g s) (missingItems c) := by
  have hm : Yields g (fun t => g = false ∧ t = .empty) (missingItems c) := by
    refine fun p t q h => ?_
    have hgap := Yields.gap (g := g) (m := missingItems c)
      (fun p => ⟨.empty, faultBy c p.lookahead, rfl, hc⟩) p t q h
    cases h
    exact ⟨hgap.1, fun hg => ⟨hgap.2 hg, rfl⟩⟩
  apply hm.imp
  rintro t ⟨hg, rfl⟩
  exact Fits.gap hs hg

/-! ## Expressions -/

section Expressions

variable {call : Call}

theorem yields_expressionList (h : Shaping g call) :
    Yields g (Fits g .expressionList) (expressionList call) := by
  unfold expressionList
  refine .map ((Yields.separated (h .expression)).imp fun parts hparts => ?_)
  exact .row rfl (by decide) hparts

theorem yields_valueComponent (h : Shaping g call) :
    Yields g (Fits g .component) (valueComponent call) := by
  unfold valueComponent
  apply (h .expression).bind
  intro low
  refine .ifAt ?_ ?_
  · apply Yields.skip
    intro _
    apply (h .expression).bind
    intro high
    apply Yields.pure
    intro hhigh hlow
    exact .parts rfl (by decide) (.cons hlow (.cons hhigh .nil))
  · exact .pure fun hlow => hlow.within rfl

theorem yields_caseLabelList (h : Shaping g call) :
    Yields g (Fits g .caseLabelList) (caseLabelList call) := by
  unfold caseLabelList
  refine .map ((Yields.separated (yields_valueComponent h)).imp fun parts hparts => ?_)
  exact .row rfl (by decide) hparts

/-- The parts in parentheses or braces, of which there may be none. -/
theorem yields_enclosed {closer : Token} {s : Slot} {item : Parser Node}
    (hi : Yields g (Fits g s) item) :
    Yields g (fun parts => ∀ t ∈ parts, Fits g s t)
      (ifAt closer (return []) (separated .comma item)) :=
  .ifAt (.pure (by simp)) (.separated hi)

theorem yields_structuredValue (h : Shaping g call) :
    Yields g (Fits g .expression) (structuredValue call) := by
  unfold structuredValue
  apply Yields.skip
  intro _
  apply (yields_enclosed (yields_valueComponent h)).bind
  intro parts
  apply Yields.skip
  intro _
  apply Yields.pure
  intro hparts
  exact .row rfl (by decide) hparts

theorem yields_actualParameters (h : Shaping g call) :
    Yields g (Fits g .arguments) (actualParameters call) := by
  unfold actualParameters
  apply Yields.skip
  intro _
  apply (yields_enclosed (h .expression)).bind
  intro parts
  apply Yields.skip
  intro _
  apply Yields.pure
  intro hparts
  exact .row rfl (by decide) hparts

theorem yields_selectorRound (h : Shaping g call) (designator : Node) :
    Yields g (fun x => Fits g .designator designator → x.Holds (Fits g .designator))
      (selectorRound call designator) := by
  unfold selectorRound
  apply Yields.skip
  intro t
  split
  · apply Yields.skip
    intro _
    apply (yields_ident _).bind
    intro field
    apply Yields.pure
    intro hfield hd
    exact .parts rfl (by decide) (.cons hd (.cons hfield .nil))
  · apply Yields.skip
    intro _
    apply (yields_expressionList h).bind
    intro subscripts
    apply Yields.skip
    intro _
    apply Yields.pure
    intro hs hd
    exact .parts rfl (by decide) (.cons hd (.cons hs .nil))
  · apply Yields.skip
    intro _
    apply Yields.pure
    intro hd
    exact .parts rfl (by decide) (.cons hd .nil)
  · exact .pure id

theorem yields_designator (h : Shaping g call) :
    Yields g (Fits g .designator) (designator call) := by
  unfold designator
  apply (yields_ident _).bind
  intro first
  apply (Yields.loop (fun _ => id) (yields_selectorRound h) first).imp
  intro d hd hfirst
  exact hd (hfirst.within rfl)

theorem yields_designatorOrCall (h : Shaping g call) :
    Yields g (Fits g .expression) (designatorOrCall call) := by
  unfold designatorOrCall
  apply (yields_designator h).bind
  intro d
  refine .ifAt ?_ ?_
  · apply (yields_actualParameters h).bind
    intro arguments
    apply Yields.pure
    intro ha hd
    exact .parts rfl (by decide) (.cons hd (.cons ha .nil))
  · exact .pure fun hd => hd.within rfl

theorem yields_parenthesized (h : Shaping g call) :
    Yields g (Fits g .expression) (parenthesized call) := by
  unfold parenthesized
  apply Yields.skip
  intro _
  apply (h .expression).bind
  intro inner
  apply Yields.skip
  intro _
  exact .pure id

theorem shapeOf_literalKind? {t : Token} {k : Kind} (h : literalKind? t = some k) :
    shapeOf k = .terminal ∧ k ∈ Slot.expression.kinds := by
  unfold literalKind? at h
  split at h <;> first | (cases h; done) | (cases h; exact ⟨rfl, by decide⟩)

theorem yields_simpleFactor (h : Shaping g call) :
    Yields g (Fits g .expression) (simpleFactor call) := by
  unfold simpleFactor
  apply Yields.skip
  intro t
  split
  · next k hk =>
    obtain ⟨hshape, hmem⟩ := shapeOf_literalKind? hk
    exact yields_leaf hshape hmem
  · split
    · exact yields_structuredValue h
    · split
      · exact yields_parenthesized h
      · split
        · exact yields_designatorOrCall h
        · apply (Yields.unexpected _).bind
          intro _
          apply Yields.skip
          intro _
          apply Yields.pure
          intro hg
          exact .gap rfl hg

theorem yields_factor (h : Shaping g call) : Yields g (Fits g .expression) (factor call) := by
  unfold factor
  apply (yields_simpleFactor h).bind
  intro value
  refine .ifAt ?_ (.pure id)
  apply Yields.skip
  intro _
  apply (yields_qualident _).bind
  intro target
  apply Yields.pure
  intro ht hv
  exact .parts rfl (by decide) (.cons hv (.cons ht .nil))

theorem yields_simpleTerm (h : Shaping g call) :
    Yields g (Fits g .expression) (simpleTerm call) := by
  refine .ifAt ?_ (yields_factor h)
  apply Yields.skip
  intro _
  apply (yields_factor h).bind
  intro operand
  apply Yields.pure
  intro ho
  exact .parts rfl (by decide) (.cons ho .nil)

/-- The kinds of nodes that have two expressions as parts. -/
def IsBinary (k : Kind) : Prop :=
  shapeOf k = .parts [.expression, .expression] ∧ k ∈ Slot.expression.kinds

theorem yields_operatorRound {kind? : Token → Option Kind}
    (hkind : ∀ t k, kind? t = some k → IsBinary k) {operand : Parser Node}
    (ho : Yields g (Fits g .expression) operand) (left : Node) :
    Yields g (fun x => Fits g .expression left → x.Holds (Fits g .expression))
      (operatorRound kind? operand left) := by
  unfold operatorRound
  apply Yields.skip
  intro t
  split
  · exact .pure id
  · next k hk =>
    obtain ⟨hshape, hmem⟩ := hkind t k hk
    apply Yields.skip
    intro _
    apply ho.bind
    intro right
    apply Yields.pure
    intro hright hleft
    exact .parts hshape hmem (.cons hleft (.cons hright .nil))

theorem isBinary_relationKind? (t : Token) (k : Kind) (h : relationKind? t = some k) :
    IsBinary k := by
  unfold relationKind? at h
  split at h <;> first | (cases h; done) | (cases h; exact ⟨rfl, by decide⟩)

theorem isBinary_additiveKind? (t : Token) (k : Kind) (h : additiveKind? t = some k) :
    IsBinary k := by
  unfold additiveKind? at h
  split at h <;> first | (cases h; done) | (cases h; exact ⟨rfl, by decide⟩)

theorem isBinary_multiplicativeKind? (t : Token) (k : Kind)
    (h : multiplicativeKind? t = some k) : IsBinary k := by
  unfold multiplicativeKind? at h
  split at h <;> first | (cases h; done) | (cases h; exact ⟨rfl, by decide⟩)

theorem yields_term (h : Shaping g call) : Yields g (Fits g .expression) (term call) := by
  unfold term
  apply (yields_simpleTerm h).bind
  intro first
  exact .loop (fun _ => id)
    (yields_operatorRound isBinary_multiplicativeKind? (yields_simpleTerm h)) first

theorem yields_signedTerm (h : Shaping g call) :
    Yields g (Fits g .expression) (signedTerm call) := by
  unfold signedTerm
  apply Yields.skip
  intro t
  split
  · apply Yields.skip
    intro _
    apply (yields_term h).bind
    intro operand
    apply Yields.pure
    intro ho
    exact .parts rfl (by decide) (.cons ho .nil)
  · exact .skip fun _ => yields_term h
  · exact yields_term h

theorem yields_simpleExpression (h : Shaping g call) :
    Yields g (Fits g .expression) (simpleExpression call) := by
  unfold simpleExpression
  apply (yields_signedTerm h).bind
  intro first
  exact .loop (fun _ => id)
    (yields_operatorRound isBinary_additiveKind? (yields_term h)) first

theorem yields_expression (h : Shaping g call) :
    Yields g (Fits g .expression) (expression call) := by
  unfold expression
  apply (yields_simpleExpression h).bind
  intro left
  apply Yields.skip
  intro t
  split
  · exact .pure id
  · next k hk =>
    obtain ⟨hshape, hmem⟩ := isBinary_relationKind? t k hk
    apply Yields.skip
    intro _
    apply (yields_simpleExpression h).bind
    intro right
    apply Yields.pure
    intro hr hl
    exact .parts hshape hmem (.cons hl (.cons hr .nil))

end Expressions

/-! ## Types -/

section Types

theorem yields_enumType : Yields g (Fits g (.of [.enumType])) enumType := by
  have hbase : Yields g (Fits g Slot.qualident.optional) enumBase := by
    refine .ifAt ?_ (.pure (.absent (List.mem_cons_self ..)))
    apply Yields.skip
    intro _
    apply (yields_qualident _).bind
    intro base
    apply Yields.skip
    intro _
    apply Yields.pure
    intro hb
    exact hb.within rfl
  unfold enumType
  apply Yields.skip
  intro _
  apply hbase.bind
  intro base
  apply (yields_identList _).bind
  intro values
  apply Yields.skip
  intro _
  apply Yields.pure
  intro hv hb
  exact .parts rfl (by decide) (.cons hb (.cons hv .nil))

theorem yields_aliasType : Yields g (Fits g .type) aliasType := by
  unfold aliasType
  apply Yields.skip
  intro _
  apply Yields.skip
  intro _
  apply (yields_qualident _).bind
  intro base
  apply Yields.pure
  intro hb
  exact .parts rfl (by decide) (.cons hb .nil)

theorem yields_setType : Yields g (Fits g .type) setType := by
  have hbase (r : TokenSet) : Yields g (Fits g (.of [.ident, .qualifiedIdent, .enumType]))
      (ifAt .lParen enumType (qualident r)) := by
    refine .ifAt ?_ ?_
    · exact yields_enumType.within rfl
    · exact (yields_qualident r).within rfl
  unfold setType
  apply Yields.skip
  intro _
  apply Yields.skip
  intro _
  apply (hbase _).bind
  intro base
  apply Yields.pure
  intro hb
  exact .parts rfl (by decide) (.cons hb .nil)

theorem yields_parameterType (r : TokenSet) :
    Yields g (Fits g .parameterType) (parameterType r) := by
  refine .ifAt ?_ ?_
  · apply Yields.skip
    intro _
    apply Yields.skip
    intro _
    apply (yields_qualident _).bind
    intro element
    apply Yields.pure
    intro he
    exact .parts rfl (by decide) (.cons he .nil)
  · exact (yields_qualident r).within rfl

theorem yields_formalType (r : TokenSet) : Yields g (Fits g .formalType) (formalType r) := by
  unfold formalType
  apply Yields.skip
  intro t
  split
  · apply Yields.skip
    intro _
    apply Yields.skip
    intro _
    apply (yields_parameterType r).bind
    intro inner
    apply Yields.pure
    intro hi
    exact .parts rfl (by decide) (.cons hi .nil)
  · apply Yields.skip
    intro _
    apply (yields_parameterType r).bind
    intro inner
    apply Yields.pure
    intro hi
    exact .parts rfl (by decide) (.cons hi .nil)
  · exact (yields_parameterType r).within rfl

theorem yields_formalTypeList :
    Yields g (Fits g (.optional (.of [.formalTypeList]))) formalTypeList := by
  refine .ifAt ?_ ?_
  · exact .skip fun _ => .pure (.absent (List.mem_cons_self ..))
  · apply (Yields.separated (yields_formalType _)).bind
    intro types
    apply Yields.skip
    intro _
    apply Yields.pure
    intro ht
    exact .row rfl (by decide) ht

theorem yields_procedureType : Yields g (Fits g .type) procedureType := by
  unfold procedureType
  apply Yields.skip
  intro _
  apply (yields_optionalAt yields_formalTypeList).bind
  intro parameters
  apply (yields_optionalAt (yields_qualident _)).bind
  intro result
  apply Yields.pure
  intro hr hp
  refine .parts rfl (by decide) (.cons ?_ (.cons hr .nil))
  exact hp.within rfl

variable {o : ParseOptions} {call : Call}

theorem yields_subrangeType (h : Shaping g call) :
    Yields g (Fits g .type) (subrangeType call) := by
  unfold subrangeType
  apply Yields.skip
  intro _
  apply (h .expression).bind
  intro low
  apply Yields.skip
  intro _
  apply (h .expression).bind
  intro high
  apply Yields.skip
  intro _
  apply (yields_optionalAt (yields_qualident _)).bind
  intro base
  apply Yields.pure
  intro hb hh hl
  exact .parts rfl (by decide) (.cons hl (.cons hh (.cons hb .nil)))

theorem yields_arrayType (h : Shaping g call) : Yields g (Fits g .type) (arrayType call) := by
  unfold arrayType
  apply Yields.skip
  intro _
  apply (yields_expressionList h).bind
  intro dimensions
  apply Yields.skip
  intro _
  apply (h .type).bind
  intro element
  apply Yields.pure
  intro he hd
  exact .parts rfl (by decide) (.cons hd (.cons he .nil))

theorem yields_pointerType (h : Shaping g call) :
    Yields g (Fits g .type) (pointerType call) := by
  unfold pointerType
  apply Yields.skip
  intro _
  apply Yields.skip
  intro _
  apply (h .type).bind
  intro target
  apply Yields.pure
  intro ht
  exact .parts rfl (by decide) (.cons ht .nil)

theorem yields_fieldList (h : Shaping g call) :
    Yields g (Fits g (.of [.fieldList, .variantFieldList])) (fieldList o call) := by
  have hfields : Yields g (Fits g (.of [.fieldList, .variantFieldList])) (fields call) := by
    unfold fields
    apply (yields_identList _).bind
    intro names
    apply Yields.skip
    intro _
    apply (h .type).bind
    intro type
    apply Yields.pure
    intro ht hn
    exact .parts rfl (by decide) (.cons hn (.cons ht .nil))
  unfold fieldList
  apply Yields.choose
  intro t
  dsimp only
  split
  · exact .inl hfields
  · split
    · exact .inl ((h .variantFields).within rfl)
    · next hi hc =>
      refine .inr ⟨_, _, .empty, fun ht => ?_, rfl, .gap rfl⟩
      rcases fieldListStartOf_cases ht with h | h
      · exact hi h
      · exact hc ⟨h, ht⟩

theorem yields_fieldListSequence (h : Shaping g call) :
    Yields g (Fits g .fieldListSequence) (fieldListSequence o call) := by
  apply Yields.ifAtAny (yields_missingItems rfl rfl)
  apply (yields_semicolonList (by decide) o _ _ (yields_fieldList h)).bind
  intro lists
  exact .pure fun hl => fits_listNode rfl hl.1 hl.2

theorem yields_variant (h : Shaping g call) :
    Yields g (Fits g (.filled [.variant])) (variant o call) := by
  unfold variant
  apply (yields_caseLabelList h).bind
  intro labels
  apply Yields.skip
  intro _
  apply (yields_fieldListSequence h).bind
  intro fields
  apply Yields.pure
  intro hf hl
  exact .parts rfl (by decide) (.cons hl (.cons hf .nil))

theorem yields_variantFieldList (h : Shaping g call) :
    Yields g (Fits g (.of [.variantFieldList])) (variantFieldList o call) := by
  have htag : Yields g (Fits g Slot.ident.optional)
      (ifAtAny identStart (leaf .ident) (return .empty)) :=
    .ifAtAny (yields_leaf rfl (by decide)) (.pure (.absent (List.mem_cons_self ..)))
  unfold variantFieldList
  apply Yields.skip
  intro _
  apply htag.bind
  intro tag
  apply Yields.skip
  intro _
  apply (yields_qualident _).bind
  intro tagType
  apply Yields.skip
  intro _
  apply Yields.skip
  intro _
  apply (Yields.separated (yields_variant h)).bind
  intro variants
  apply (yields_optionalAt (yields_fieldListSequence h)).bind
  intro otherwise
  apply Yields.skip
  intro _
  apply Yields.pure
  intro ho hv htype ht
  have hlist : Fits g (.filled [.variantList]) (.branch .variantList variants) :=
    .row rfl (by decide) hv
  exact .parts rfl (by decide) (.cons ht (.cons htype (.cons hlist (.cons ho .nil))))

theorem yields_recordBody (h : Shaping g call) : Yields g (Fits g .type) (recordBody o call) := by
  have hbase : Yields g (Fits g Slot.qualident.optional) recordBase := by
    refine .ifAt ?_ (.pure (.absent (List.mem_cons_self ..)))
    apply Yields.skip
    intro _
    apply (yields_qualident _).bind
    intro base
    apply Yields.skip
    intro _
    apply Yields.pure
    intro hb
    exact hb.within rfl
  unfold recordBody
  split
  · apply (yields_fieldListSequence h).bind
    intro fields
    apply Yields.pure
    intro hf
    exact .parts rfl (by decide) (.cons hf .nil)
  · apply hbase.bind
    intro base
    apply (yields_fieldListSequence h).bind
    intro fields
    apply Yields.pure
    intro hf hb
    exact .parts rfl (by decide) (.cons hb (.cons hf .nil))

theorem yields_recordType (h : Shaping g call) : Yields g (Fits g .type) (recordType o call) := by
  unfold recordType
  apply Yields.skip
  intro _
  apply (yields_recordBody h).bind
  intro node
  apply Yields.skip
  intro _
  exact .pure id

theorem yields_typeDenoter (h : Shaping g call) :
    Yields g (Fits g .type) (typeDenoter o call) := by
  unfold typeDenoter
  apply Yields.choose
  intro t
  split
  · exact .inl yields_aliasType
  · exact .inl (yields_subrangeType h)
  · exact .inl (yields_enumType.within rfl)
  · exact .inl yields_setType
  · exact .inl (yields_arrayType h)
  · exact .inl (yields_recordType h)
  · exact .inl (yields_pointerType h)
  · exact .inl yields_procedureType
  · split
    · exact .inl ((yields_qualident _).within rfl)
    · next hi =>
      refine .inr ⟨_, _, .empty, fun ht => ?_, rfl, .gap rfl⟩
      rcases typeStart_cases ht with h | h | h | h | h | h | h | h | h
      · exact hi h
      all_goals contradiction

end Types

/-! ## Statements -/

section Statements

variable {o : ParseOptions} {call : Call}

theorem yields_statementSequence (h : Shaping g call) :
    Yields g (Fits g .statementSequence) (statementSequence o call) := by
  apply Yields.ifAtAny (yields_missingItems rfl rfl)
  apply (yields_semicolonList (by decide) o _ _ (h .statement)).bind
  intro statements
  exact .pure fun hs => fits_listNode rfl hs.1 hs.2

theorem yields_assignmentOrCall (h : Shaping g call) :
    Yields g (Fits g Nested.statement.slot) (assignmentOrCall call) := by
  unfold assignmentOrCall
  apply (yields_designator h).bind
  intro d
  apply Yields.skip
  intro t
  split
  · apply Yields.skip
    intro _
    apply (h .expression).bind
    intro value
    apply Yields.pure
    intro hv hd
    exact .parts rfl (by decide) (.cons hd (.cons hv .nil))
  · apply (yields_actualParameters h).bind
    intro arguments
    apply Yields.pure
    intro ha hd
    refine .parts rfl (by decide) (.cons hd (.cons ?_ .nil))
    exact ha.within rfl
  · apply Yields.pure
    intro hd
    exact .parts rfl (by decide) (.cons hd (.cons (.absent (List.mem_cons_self ..)) .nil))

theorem yields_thenBranch (h : Shaping g call) :
    Yields g (Fits g .statementSequence) (thenBranch o call) := by
  unfold thenBranch
  apply (Yields.accept _ _).bind
  intro found
  cases found with
  | true => exact (yields_statementSequence h).weaken
  | false => exact .pure fun hg => .gap rfl (hg rfl)

theorem yields_elsifBranch (h : Shaping g call) :
    Yields g (Fits g (.filled [.elsifBranch])) (elsifBranch o call) := by
  unfold elsifBranch
  apply Yields.skip
  intro _
  apply (h .expression).bind
  intro condition
  apply (yields_thenBranch h).bind
  intro body
  apply Yields.pure
  intro hb hc
  exact .parts rfl (by decide) (.cons hc (.cons hb .nil))

theorem yields_ifStatement (h : Shaping g call) :
    Yields g (Fits g Nested.statement.slot) (ifStatement o call) := by
  unfold ifStatement elseBranch
  apply Yields.skip
  intro _
  apply (h .expression).bind
  intro condition
  apply (yields_thenBranch h).bind
  intro body
  apply (Yields.whileAtAny (yields_elsifBranch h)).bind
  intro elsifs
  apply (yields_optionalAt (yields_statementSequence h)).bind
  intro otherwise
  apply Yields.skip
  intro _
  apply Yields.pure
  intro ho he hb hc
  exact .parts rfl (by decide)
    (.cons hc (.cons hb (.cons (fits_optionalListNode rfl he) (.cons ho .nil))))

theorem yields_caseBranch (h : Shaping g call) :
    Yields g (Fits g (.filled [.caseBranch])) (caseBranch o call) := by
  unfold caseBranch
  apply (yields_caseLabelList h).bind
  intro labels
  apply Yields.skip
  intro _
  apply (yields_statementSequence h).bind
  intro body
  apply Yields.pure
  intro hb hl
  exact .parts rfl (by decide) (.cons hl (.cons hb .nil))

theorem yields_caseRound (h : Shaping g call) (found : List Node) :
    Yields g (fun x => (∀ t ∈ found, Fits g (.filled [.caseBranch]) t) →
      x.Holds fun found => ∀ t ∈ found, Fits g (.filled [.caseBranch]) t)
      (caseRound o call found) := by
  have hbranch : Yields g (fun x : Round (List Node) =>
      (∀ t ∈ found, Fits g (.filled [.caseBranch]) t) →
        x.Holds fun found => ∀ t ∈ found, Fits g (.filled [.caseBranch]) t)
      (do return Round.more ((← caseBranch o call) :: found)) :=
    (yields_caseBranch h).bind fun b => .pure fun hb hfound => List.forall_mem_cons.2 ⟨hb, hfound⟩
  apply Yields.ifAt (.skip fun _ => hbranch)
  split
  · exact .ifAtAny hbranch (.pure id)
  · exact .pure id

theorem yields_caseStatement (h : Shaping g call) :
    Yields g (Fits g Nested.statement.slot) (caseStatement o call) := by
  unfold caseStatement elseBranch
  apply Yields.skip
  intro _
  apply (h .expression).bind
  intro selector
  apply Yields.skip
  intro _
  apply (Yields.loop (fun _ => id) (yields_caseRound h) []).bind
  intro branches
  apply (yields_optionalAt (yields_statementSequence h)).bind
  intro otherwise
  apply Yields.skip
  intro _
  apply Yields.pure
  intro ho hb hs
  have hlist : ∀ t ∈ branches.reverse, Fits g (.filled [.caseBranch]) t := by
    simpa using hb (by simp)
  exact .parts rfl (by decide) (.cons hs (.cons (fits_optionalListNode rfl hlist) (.cons ho .nil)))

theorem yields_loopStatement (h : Shaping g call) :
    Yields g (Fits g Nested.statement.slot) (loopStatement o call) := by
  unfold loopStatement
  apply Yields.skip
  intro _
  apply (yields_statementSequence h).bind
  intro body
  apply Yields.skip
  intro _
  exact .pure fun hb => .parts rfl (by decide) (.cons hb .nil)

theorem yields_whileStatement (h : Shaping g call) :
    Yields g (Fits g Nested.statement.slot) (whileStatement o call) := by
  unfold whileStatement
  apply Yields.skip
  intro _
  apply (h .expression).bind
  intro condition
  apply Yields.skip
  intro _
  apply (yields_statementSequence h).bind
  intro body
  apply Yields.skip
  intro _
  apply Yields.pure
  intro hb hc
  exact .parts rfl (by decide) (.cons hc (.cons hb .nil))

theorem yields_repeatStatement (h : Shaping g call) :
    Yields g (Fits g Nested.statement.slot) (repeatStatement o call) := by
  unfold repeatStatement
  apply Yields.skip
  intro _
  apply (yields_statementSequence h).bind
  intro body
  apply Yields.skip
  intro _
  apply (h .expression).bind
  intro condition
  apply Yields.pure
  intro hc hb
  exact .parts rfl (by decide) (.cons hb (.cons hc .nil))

theorem yields_forStatement (h : Shaping g call) :
    Yields g (Fits g Nested.statement.slot) (forStatement o call) := by
  unfold forStatement
  apply Yields.skip
  intro _
  apply (yields_ident _).bind
  intro control
  apply Yields.skip
  intro _
  apply (h .expression).bind
  intro first
  apply Yields.skip
  intro _
  apply (h .expression).bind
  intro last
  apply (yields_optionalAt (h .expression)).bind
  intro step
  apply Yields.skip
  intro _
  apply (yields_statementSequence h).bind
  intro body
  apply Yields.skip
  intro _
  apply Yields.pure
  intro hb hstep hl hf hc
  exact .parts rfl (by decide) (.cons hc (.cons hf (.cons hl (.cons hstep (.cons hb .nil)))))

theorem yields_returnStatement (h : Shaping g call) :
    Yields g (Fits g Nested.statement.slot) (returnStatement call) := by
  have hvalue : Yields g (Fits g Slot.expression.optional)
      (ifAtAny expressionStart (call .expression) (return .empty)) := by
    refine .ifAtAny ?_ (.pure (.absent (List.mem_cons_self ..)))
    exact (h .expression).within rfl
  unfold returnStatement
  apply Yields.skip
  intro _
  apply hvalue.bind
  intro value
  apply Yields.pure
  intro hv
  exact .parts rfl (by decide) (.cons hv .nil)

theorem yields_of_statementRule? (h : Shaping g call) {t : Token} {rule : Parser Node}
    (hr : statementRule? o call t = some rule) :
    Yields g (Fits g Nested.statement.slot) rule := by
  unfold statementRule? at hr
  split at hr
  · cases hr; exact yields_ifStatement h
  · cases hr; exact yields_caseStatement h
  · cases hr; exact yields_loopStatement h
  · cases hr; exact yields_whileStatement h
  · cases hr; exact yields_repeatStatement h
  · cases hr; exact yields_forStatement h
  · cases hr; exact yields_returnStatement h
  · cases hr; exact .skip fun _ => .pure (.parts rfl (by decide) .nil)
  · split at hr
    · cases hr; exact yields_assignmentOrCall h
    · cases hr

theorem yields_statement (h : Shaping g call) :
    Yields g (Fits g Nested.statement.slot) (statement o call) := by
  unfold statement
  apply Yields.choose
  intro t
  split
  · next rule hr =>
    refine .inl ((yields_of_statementRule? h hr).bind fun node => ?_)
    exact .skip fun _ => .pure id
  · next hr =>
    refine .inr ⟨_, _, .empty, fun ht => ?_, rfl, .gap rfl⟩
    have hsome := isSome_statementRule? o call ht
    rw [hr] at hsome
    cases hsome

end Statements

/-! ## Declarations -/

section Declarations

theorem yields_formalParameters :
    Yields g (Fits g (.of [.valueParameters, .constantParameters, .variableParameters]))
      formalParameters := by
  have hmode : Yields g
      (fun k => k ∈ [.valueParameters, .constantParameters, .variableParameters] ∧
        shapeOf k = .parts [.identList, .formalType]) parameterMode := by
    unfold parameterMode
    apply Yields.skip
    intro t
    split
    · exact .skip fun _ => .pure ⟨by decide, rfl⟩
    · exact .skip fun _ => .pure ⟨by decide, rfl⟩
    · exact .pure ⟨by decide, rfl⟩
  unfold formalParameters
  apply hmode.bind
  intro kind
  apply (yields_identList _).bind
  intro names
  apply Yields.skip
  intro _
  apply (yields_formalType _).bind
  intro type
  apply Yields.pure
  intro ht hn hk
  exact .parts hk.2 hk.1 (.cons hn (.cons ht .nil))

theorem yields_formalParameterList (o : ParseOptions) :
    Yields g (Fits g (.optional (.of [.formalParameterList]))) (formalParameterList o) := by
  refine .ifAt ?_ ?_
  · exact .skip fun _ => .pure (.absent (List.mem_cons_self ..))
  · apply (yields_semicolonList (by decide) o _ _ yields_formalParameters).bind
    intro ps
    apply Yields.skip
    intro _
    apply Yields.pure
    intro hp
    exact .row rfl (by decide) hp.1

/-- The parts of a header stand where they stand in the node of a procedure. -/
def Header.Fits (g : Bool) (h : Header) : Prop :=
  Modula.Fits g .ident h.name ∧
    Modula.Fits g (.optional (.of [.formalParameterList])) h.parameters ∧
    Modula.Fits g Slot.qualident.optional h.result

theorem yields_procedureHeader (o : ParseOptions) :
    Yields g (Header.Fits g) (procedureHeader o) := by
  unfold procedureHeader
  apply Yields.skip
  intro _
  apply (yields_ident _).bind
  intro name
  apply (yields_optionalAt (yields_formalParameterList o)).bind
  intro parameters
  apply (yields_optionalAt (yields_qualident _)).bind
  intro result
  apply Yields.pure
  intro hr hp hn
  exact ⟨hn, hp.within rfl, hr⟩

theorem yields_procedureDefinition (o : ParseOptions) :
    Yields g (Fits g (.filled [.procedureDefinition])) (procedureDefinition o) := by
  unfold procedureDefinition
  apply (yields_procedureHeader o).bind
  intro header
  apply Yields.skip
  intro _
  apply Yields.skip
  intro _
  refine .pure fun ⟨hn, hp, hr⟩ => ?_
  exact .parts rfl (by decide) (.cons hn (.cons hp (.cons hr .nil)))

variable {o : ParseOptions} {call : Call}

theorem yields_constantDefinition (h : Shaping g call) :
    Yields g (Fits g (.filled [.constantDefinition])) (constantDefinition call) := by
  unfold constantDefinition
  apply (yields_ident _).bind
  intro name
  apply Yields.skip
  intro _
  apply (h .expression).bind
  intro value
  apply Yields.skip
  intro _
  apply Yields.pure
  intro hv hn
  exact .parts rfl (by decide) (.cons hn (.cons hv .nil))

theorem yields_typeDefinition (h : Shaping g call) (part : Part) :
    Yields g (Fits g (.filled [.typeDefinition])) (typeDefinition call part) := by
  have hopaque : Yields g (Fits g ⟨.opaqueType :: Slot.type.kinds, false⟩) (opaqueType part) := by
    have hnode : Fits g ⟨.opaqueType :: Slot.type.kinds, false⟩ (Tree.bare .opaqueType) :=
      .parts rfl (by decide) .nil
    intro p t q hm
    have hsteps := Composed.steps (n := 0) inferInstance hm
    refine ⟨hsteps.gaps_le, fun _ => ?_⟩
    cases part <;> cases hm <;> exact hnode
  unfold typeDefinition
  apply (yields_ident _).bind
  intro name
  apply Yields.skip
  intro _
  have hdenoter : Yields g (Fits g ⟨.opaqueType :: Slot.type.kinds, false⟩)
      (ifAt .kwOpaque (opaqueType part) (call .type)) :=
    .ifAt hopaque ((h .type).within rfl)
  apply hdenoter.bind
  intro denoter
  apply Yields.skip
  intro _
  apply Yields.pure
  intro hd hn
  exact .parts rfl (by decide) (.cons hn (.cons hd .nil))

theorem yields_variableDeclaration (h : Shaping g call) :
    Yields g (Fits g (.filled [.variableDeclaration])) (variableDeclaration call) := by
  unfold variableDeclaration
  apply (yields_identList _).bind
  intro names
  apply Yields.skip
  intro _
  apply (h .type).bind
  intro type
  apply Yields.skip
  intro _
  apply Yields.pure
  intro ht hn
  exact .parts rfl (by decide) (.cons hn (.cons ht .nil))

theorem yields_declarationSection {s : Slot} {item : Parser Node}
    (hi : Yields g (Fits g s) item) :
    Yields g (fun ds => ∀ d ∈ ds, Fits g s d) (declarationSection item) := by
  unfold declarationSection
  apply Yields.skip
  intro _
  apply Yields.whileAtAny
  apply hi.bind
  intro node
  apply Yields.skip
  intro _
  exact .pure id

/-- What stands in the declarations of a part. -/
def Part.slot : Part → Slot
  | definitions =>
    .filled [.constantDefinition, .typeDefinition, .variableDeclaration, .procedureDefinition]
  | declarations =>
    .filled [.constantDefinition, .typeDefinition, .variableDeclaration, .procedureDeclaration]

theorem yields_declarationRound (h : Shaping g call) (part : Part) (found : List (List Node)) :
    Yields g (fun x => (∀ ds ∈ found, ∀ d ∈ ds, Fits g part.slot d) →
        x.Holds fun found => ∀ ds ∈ found, ∀ d ∈ ds, Fits g part.slot d)
      (declarationRound o call part found) := by
  have hround {kind : Kind} (hk : (Slot.filled [kind]).isWithin part.slot = true)
      {m : Parser (List Node)}
      (hm : Yields g (fun ds => ∀ d ∈ ds, Fits g (.filled [kind]) d) m) :
      Yields g (fun x : Round (List (List Node)) => (∀ ds ∈ found, ∀ d ∈ ds, Fits g part.slot d) →
        x.Holds fun found => ∀ ds ∈ found, ∀ d ∈ ds, Fits g part.slot d)
        (do return Round.more ((← m) :: found)) := by
    apply hm.bind
    intro ds
    apply Yields.pure
    intro hds hfound
    exact List.forall_mem_cons.2 ⟨fun d hd => (hds d hd).within hk, hfound⟩
  have hprocedure : Yields g (Fits g part.slot) (procedureIn o call part) := by
    cases part with
    | definitions => exact (yields_procedureDefinition o).within rfl
    | declarations => exact (h .procedure).within rfl
  unfold declarationRound
  apply Yields.skip
  intro t
  split
  · exact hround (by cases part <;> decide)
      (yields_declarationSection (yields_constantDefinition h))
  · exact hround (by cases part <;> decide)
      (yields_declarationSection (yields_typeDefinition h part))
  · exact hround (by cases part <;> decide)
      (yields_declarationSection (yields_variableDeclaration h))
  · apply hprocedure.bind
    intro d
    apply Yields.pure
    intro hd hfound
    exact List.forall_mem_cons.2 ⟨by simpa using hd, hfound⟩
  · exact .ifAtAny (.pure id) (.skip fun _ => .pure id)

theorem yields_declarationList (h : Shaping g call) (part : Part) :
    Yields g (Fits g (.optional (.of [part.kind]))) (declarationList o call part) := by
  unfold declarationList
  apply (Yields.loop (fun _ => id) (yields_declarationRound h part) []).bind
  intro sections
  refine .pure fun hs => fits_optionalListNode (s := part.slot) (by cases part <;> rfl) ?_
  intro d hd
  obtain ⟨ds, hds, hd⟩ := List.mem_flatten.1 hd
  exact hs (by simp) ds (List.mem_reverse.1 hds) d hd

theorem yields_block (h : Shaping g call) : Yields g (Fits g .block) (block o call) := by
  unfold block
  apply (yields_declarationList h .declarations).bind
  intro declarations
  apply (yields_optionalAt (yields_statementSequence h)).bind
  intro body
  apply Yields.skip
  intro _
  exact .pure fun hb hd => .parts rfl (by decide) (.cons hd (.cons hb .nil))

theorem yields_procedureDeclaration (h : Shaping g call) :
    Yields g (Fits g (.filled [.procedureDeclaration])) (procedureDeclaration o call) := by
  unfold procedureDeclaration
  apply (yields_procedureHeader o).bind
  intro header
  apply Yields.skip
  intro _
  apply (yields_block h).bind
  intro body
  apply Yields.skip
  intro _
  apply Yields.skip
  intro _
  apply Yields.skip
  intro _
  refine .pure fun hb ⟨hn, hp, hr⟩ => ?_
  exact .parts rfl (by decide) (.cons hn (.cons hp (.cons hr (.cons hb .nil))))

end Declarations

/-! ## Nested constructs and compilation units -/

/-- The nested constructs answer trees of the right shape, however many levels are left. -/
theorem shaping_nested (o : ParseOptions) (levels : Nat) : Shaping g (nested o levels) := by
  induction levels with
  | zero =>
    intro x p t q hm
    cases hm
  | succ levels ih =>
    intro x
    cases x with
    | expression => exact yields_expression ih
    | statement => exact yields_statement ih
    | type => exact yields_typeDenoter ih
    | procedure => exact yields_procedureDeclaration ih
    | variantFields => exact yields_variantFieldList ih

theorem yields_importClause :
    Yields g (Fits g (.filled [.qualifiedImport, .unqualifiedImport])) importClause := by
  unfold importClause
  refine Yields.bind (.ifAt ?_ ?_) fun node => .skip fun _ => .pure id
  · unfold unqualifiedImport
    apply Yields.skip
    intro _
    apply (yields_ident _).bind
    intro module
    apply Yields.skip
    intro _
    apply (yields_identList _).bind
    intro names
    apply Yields.pure
    intro hn hm
    exact .parts rfl (by decide) (.cons hm (.cons hn .nil))
  · unfold qualifiedImport
    apply Yields.skip
    intro _
    apply (Yields.separated (yields_ident _)).bind
    intro modules
    exact .pure fun hm => .row rfl (by decide) (fits_filter hm)

theorem yields_importList : Yields g (Fits g (.optional (.of [.importList]))) importList := by
  unfold importList
  apply (Yields.whileAtAny yields_importClause).bind
  intro imports
  exact .pure fun hi => fits_optionalListNode rfl hi

theorem yields_moduleHeader : Yields g (Fits g .ident) moduleHeader := by
  unfold moduleHeader
  apply Yields.skip
  intro _
  apply (yields_ident _).bind
  intro name
  apply Yields.skip
  intro _
  exact .pure id

theorem yields_definitionModule (o : ParseOptions) :
    Yields g (Fits g (.filled [.definitionModule])) (definitionModule o) := by
  unfold definitionModule
  apply Yields.skip
  intro _
  apply yields_moduleHeader.bind
  intro name
  apply yields_importList.bind
  intro imports
  apply (yields_declarationList (shaping_nested o _) .definitions).bind
  intro definitions
  apply Yields.skip
  intro _
  apply Yields.skip
  intro _
  apply Yields.pure
  intro hd hi hn
  exact .parts rfl (by decide) (.cons hn (.cons hi (.cons hd .nil)))

theorem yields_programModule (o : ParseOptions) {kind : Kind}
    (hk : kind = .implementationModule ∨ kind = .programModule) :
    Yields g (Fits g (.filled [kind])) (programModule o kind) := by
  unfold programModule
  apply yields_moduleHeader.bind
  intro name
  apply yields_importList.bind
  intro imports
  apply (yields_block (shaping_nested o _)).bind
  intro body
  apply Yields.skip
  intro _
  apply Yields.pure
  intro hb hi hn
  refine .parts ?_ (List.mem_singleton_self kind) (.cons hn (.cons hi (.cons hb .nil)))
  rcases hk with rfl | rfl <;> rfl

/-- What stands at the root of a tree. -/
def unitSlot : Slot := .filled [.definitionModule, .implementationModule, .programModule]

theorem yields_compilationUnit (o : ParseOptions) (kind : UnitKind) :
    Yields g (Fits g unitSlot) (compilationUnit o kind) := by
  unfold compilationUnit
  apply Yields.skip
  intro first
  split
  · split
    · exact (yields_definitionModule o).within rfl
    · apply Yields.skip
      intro _
      exact (yields_programModule o (.inl rfl)).within rfl
    · exact (yields_programModule o (.inr rfl)).within rfl
  · intro p t q hm
    cases hm

end Grammar

/-! ## The tree of a parse -/

/-- Every tree has the documented shape, down to its terminals: each node has the parts of its
kind, and each part is of a kind that belongs there, or the placeholder where something was missed.
Without a report of something missed, the placeholder stands for absent optional parts only. -/
theorem fits_tree_of_parse (o : ParseOptions) (kind : UnitKind) (text : String)
    (out : ParseOutput) (h : parse o kind text = .ok out) :
    Fits false Grammar.unitSlot out.tree ∧
      ((∀ d ∈ out.reports, d.code.leavesGap = false) → Fits true Grammar.unitSlot out.tree) := by
  obtain ⟨p, hx, hr⟩ := exec_of_parse_eq_ok h
  refine ⟨?_, fun hclean => ?_⟩
  · exact (Grammar.yields_compilationUnit o kind _ _ _ hx).2 fun hg => by cases hg
  · obtain ⟨hle, htree⟩ := Grammar.yields_compilationUnit (g := true) o kind _ _ _ hx
    have hzero : p.gaps = 0 := by
      rw [Progress.gaps, ← hr, List.countP_eq_zero]
      intro d hd
      rw [hclean d hd]
      decide
    exact htree fun _ => by omega

/-- A program with a gap in its tree: the value of the assignment is missing. -/
theorem fits_tree_of_gap : ∃ out, parse {} .any "MODULE m; BEGIN x := END m." = .ok out ∧
    Fits false Grammar.unitSlot out.tree := by
  have hok : (parse {} .any "MODULE m; BEGIN x := END m.").isOk = true := by decide +kernel
  cases hp : parse {} .any "MODULE m; BEGIN x := END m." with
  | error e => rw [hp] at hok; cases hok
  | ok out => exact ⟨out, rfl, (fits_tree_of_parse _ _ _ out hp).1⟩

end Modula
