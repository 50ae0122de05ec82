import Modula.Proofs.Gathers
import Modula.Proofs.Outcome
import Modula.Proofs.Texts

/-!
# What the rules of the grammar gather

Every rule of the grammar answers a tree that carries the values of the symbols that the rule has
read. Most rules neither start nor stop behind `END`; statements, types and sequences may stop
there, and words follow them. The rule for a unit or a procedure drops the identifier behind its
last `END`, and this is the only symbol with a value that a rule drops where none was unexpected.
-/

namespace Modula

open Modula.Parser

/-- The token that a nested construct is known to start with when it is called. -/
def Nested.Front : Nested → Token → Prop
  | .procedure, t => t = .kwProcedure
  | .variantFields, t => t = .kwCase
  | _, _ => True

/-- What holds behind a nested construct. -/
def Nested.Behind : Nested → Bool → Prop
  | .statement | .type | .variantFields => Free
  | .expression | .procedure => Fresh

/-- What a rule relies on when it calls a nested construct. -/
def Gathering (call : Call) : Prop :=
  ∀ x, Gathers x.Front Fresh Given (fun _ => x.Behind) (call x)

namespace Grammar

variable {S : Token → Prop} {E D : Bool → Prop}

/-! ## Names and sequences -/

theorem gathers_optionalAt {w : Token} (hw : w.IsInner) (hED : ∀ b, E b → D b)
    {rule : Parser Node} (h : Gathers (fun _ => True) Fresh Given (fun _ => D) rule) :
    Gathers S E Given (fun _ => D) (optionalAt w rule) :=
  .ifAt ((Gathers.advance hw).skip fun _ => h) (.pure .empty hED)

theorem gathers_identList (r : TokenSet) :
    Gathers S Fresh Given (fun _ => Fresh) (identList r) := by
  unfold identList
  refine (Gathers.separated (by decide) (.ident _)).bind fun idents u h => ?_
  exact .pure (by simpa using h.filter.branch rfl) fun _ => id

theorem gathers_qualidentRound (r : TokenSet) {parts : List Node} {u : List Entry}
    (h : Gathers.Found parts u) :
    Gathers S Fresh (fun x v => x.Holds fun parts => Gathers.Found parts (u ++ v))
      (Round.Leaves (fun _ => Fresh) fun _ => Fresh) (qualidentRound r parts) := by
  refine .ifAt ?_ (.pure (show Gathers.Found parts (u ++ []) by simpa using h) fun _ => id)
  refine (Gathers.advance (by decide)).skip fun _ => (Gathers.ident r).bind fun part v hpart => ?_
  split
  · next he =>
    obtain rfl : v = [] := hpart.of_isEmpty he
    exact .pure (show Gathers.Found parts (u ++ ([] ++ [])) by simpa using h) fun _ => id
  · refine .pure (show Gathers.Found (part :: parts) (u ++ (v ++ [])) from ?_) fun _ => id
    rw [List.append_nil]
    exact h.cons hpart

theorem gathers_qualident (r : TokenSet) :
    Gathers S Fresh Given (fun _ => Fresh) (qualident r) := by
  unfold qualident
  refine (Gathers.ident r).bind fun first u hfirst => ?_
  have hone {T : Token → Prop} :
      Gathers T Fresh (fun x v => Given x (u ++ v)) (fun _ => Fresh) (return first) :=
    .pure (by simpa using hfirst) fun _ => id
  split
  · exact hone
  · refine .ifAt ?_ hone
    refine (Gathers.loop (I := Gathers.Found) (M := fun _ => Fresh)
      (fun _ _ h => gathers_qualidentRound r h) (a := [first]) (u := u) hfirst).bind ?_
    intro parts v hparts
    exact .pure (by simpa using Carry.branch rfl hparts) fun _ => id

/-- The item of a round is gathered, unless it is a placeholder. -/
theorem gathers_semicolonRound (o : ParseOptions) (start closers : TokenSet)
    (hD : ∀ b, Fresh b → D b) {item : Parser Node}
    (hi : Gathers (fun _ => True) Fresh Given (fun _ => D) item) {found : List Node}
    {u : List Entry} (h : Gathers.Found found u) :
    Gathers S Fresh (fun x v => x.Holds fun found => Gathers.Found found (u ++ v))
      (Round.Leaves (fun _ => Fresh) fun _ => D) (semicolonRound o start closers item found) := by
  unfold semicolonRound
  refine (hi.whenAt fun _ _ => trivial).bind fun node v hnode => ?_
  have hmore : Gathers.Found (if node.isEmpty then found else node :: found)
      (u ++ (v ++ [])) := by
    rw [List.append_nil]
    split
    · next he =>
      obtain rfl : v = [] := hnode.of_isEmpty he
      simpa using h
    · exact h.cons hnode
  have herrant {T : Token → Prop} (s : Symbol) :
      Gathers T Fresh Nothing (fun _ => Fresh) (reportErrant o s) :=
    .look fun _ => ⟨(), .inr ⟨_, rfl⟩⟩
  refine .ifAt ((Gathers.next (by decide)).skip fun semicolon => .ifAtAny ?_ ?_) (.ifAtAny ?_ ?_)
  · exact (herrant semicolon).skip fun _ => .pure hmore hD
  · exact .pure hmore fun _ => id
  · exact (Gathers.unexpected _).skip fun _ => .pure hmore fun _ => False.elim
  · exact .pure hmore fun _ => id

theorem gathers_semicolonList (o : ParseOptions) (start closers : TokenSet)
    (hD : ∀ b, Fresh b → D b) {item : Parser Node}
    (hi : Gathers (fun _ => True) Fresh Given (fun _ => D) item) :
    Gathers S Fresh Carry (fun _ => D) (semicolonList o start closers item) :=
  .row (M := fun _ => Fresh) fun _ _ h =>
    gathers_semicolonRound o start closers hD hi h

theorem gathers_missingItems (c : Code) : Gathers S E Given (fun _ => E) (missingItems c) :=
  Gathers.lookahead.skip fun _ => (Gathers.report _).skip fun _ => .pure .empty fun _ => id

/-! ## Expressions -/

section Expressions

variable {call : Call}

theorem Gathering.expression (h : Gathering call) :
    Gathers S Fresh Given (fun _ => Fresh) (call .expression) :=
  Gathers.whenAt (h .expression) fun _ _ => trivial

theorem gathers_expressionList (h : Gathering call) :
    Gathers S Fresh Given (fun _ => Fresh) (expressionList call) := by
  refine .map (.imp (.separated (by decide) (Gathering.expression h)) ?_)
  exact fun parts u hparts => hparts.branch rfl

theorem gathers_valueComponent (h : Gathering call) :
    Gathers S Fresh Given (fun _ => Fresh) (valueComponent call) := by
  unfold valueComponent
  refine (Gathering.expression h).bind fun low u hlow => .ifAt ?_ ?_
  · refine (Gathers.advance (by decide)).skip fun _ => ?_
    refine (Gathering.expression h).bind fun high v hhigh => ?_
    exact .pure (by simpa using (hlow.append hhigh).branch (k := .range) rfl) fun _ => id
  · exact .pure (by simpa using hlow) fun _ => id

theorem gathers_caseLabelList (h : Gathering call) :
    Gathers S Fresh Given (fun _ => Fresh) (caseLabelList call) := by
  refine .map (.imp (.separated (by decide) (gathers_valueComponent h)) ?_)
  exact fun parts u hparts => hparts.branch rfl

/-- The parts in parentheses or braces, of which there may be none. -/
theorem gathers_enclosed (closer : Token) {item : Parser Node}
    (hi : Gathers (fun _ => True) Fresh Given (fun _ => Fresh) item) :
    Gathers S Fresh Carry (fun _ => Fresh)
      (ifAt closer (return []) (separated .comma item)) :=
  .ifAt (.pure .nil fun _ => id) (.separated (by decide) hi)

theorem gathers_structuredValue (h : Gathering call) :
    Gathers (· = .lBrace) E Given (fun _ => Fresh) (structuredValue call) := by
  unfold structuredValue
  refine (Gathers.advance (by decide)).skip fun _ => ?_
  refine (gathers_enclosed .rBrace (gathers_valueComponent h)).bind fun parts u hparts => ?_
  refine (Gathers.expect (by decide) _).skip fun _ => ?_
  exact .pure (by simpa using hparts.branch (k := .structuredValue) rfl) fun _ => id

theorem gathers_actualParameters (h : Gathering call) :
    Gathers (· = .lParen) E Given (fun _ => Fresh) (actualParameters call) := by
  unfold actualParameters
  refine (Gathers.advance (by decide)).skip fun _ => ?_
  refine (gathers_enclosed .rParen (Gathering.expression h)).bind fun parts u hparts => ?_
  refine (Gathers.expect (by decide) _).skip fun _ => ?_
  exact .pure (by simpa using hparts.branch (k := .arguments) rfl) fun _ => id

theorem gathers_selectorRound (h : Gathering call) {designator : Node} {u : List Entry}
    (hd : Given designator u) :
    Gathers S Fresh (fun x v => x.Holds fun d => Given d (u ++ v))
      (Round.Leaves (fun _ => Fresh) fun _ => Fresh) (selectorRound call designator) := by
  refine .choose fun t _ => ?_
  split
  · refine (Gathers.advance (by decide)).skip fun _ => (Gathers.ident _).bind fun f v hf => ?_
    exact .pure (by simpa using (hd.append hf).branch (k := .field) rfl) fun _ => id
  · refine (Gathers.advance (by decide)).skip fun _ => ?_
    refine (gathers_expressionList h).bind fun subscripts v hs => ?_
    refine (Gathers.expect (by decide) _).skip fun _ => ?_
    exact .pure (by simpa using (hd.append hs).branch (k := .subscript) rfl) fun _ => id
  · refine (Gathers.advance (by decide)).skip fun _ => ?_
    exact .pure (by simpa using hd.branch (k := .dereference) rfl) fun _ => id
  · exact .pure (show Given designator (u ++ []) by simpa using hd) fun _ => id

theorem gathers_designator (h : Gathering call) :
    Gathers S Fresh Given (fun _ => Fresh) (designator call) := by
  unfold designator
  refine (Gathers.ident _).bind fun first u hfirst => ?_
  exact .loop (I := Given) (M := fun _ => Fresh)
    (fun _ _ hd => gathers_selectorRound h hd) hfirst

theorem gathers_designatorOrCall (h : Gathering call) :
    Gathers S Fresh Given (fun _ => Fresh) (designatorOrCall call) := by
  unfold designatorOrCall
  refine (gathers_designator h).bind fun d u hd => .ifAt ?_ ?_
  · refine (gathers_actualParameters h).bind fun arguments v ha => ?_
    exact .pure (by simpa using (hd.append ha).branch (k := .functionCall) rfl) fun _ => id
  · exact .pure (by simpa using hd) fun _ => id

theorem gathers_parenthesized (h : Gathering call) :
    Gathers (· = .lParen) E Given (fun _ => Fresh) (parenthesized call) := by
  unfold parenthesized
  refine (Gathers.advance (by decide)).skip fun _ => ?_
  refine (Gathering.expression h).bind fun inner u hinner => ?_
  refine (Gathers.expect (by decide) _).skip fun _ => ?_
  exact .pure (by simpa using hinner) fun _ => id

theorem literalKind?_eq_terminalKind? {t : Token} {k : Kind} (h : literalKind? t = some k) :
    t.terminalKind? = some k := by
  revert h
  cases t <;> rintro ⟨⟩ <;> rfl

theorem gathers_simpleFactor (h : Gathering call) :
    Gathers S Fresh Given (fun _ => Fresh) (simpleFactor call) := by
  refine .choose fun t _ => ?_
  split
  · next k hk => exact .leaf (by rintro _ rfl; exact literalKind?_eq_terminalKind? hk)
  · split
    · next ht => exact ht ▸ gathers_structuredValue h
    · split
      · next ht => exact ht ▸ gathers_parenthesized h
      · split
        · exact gathers_designatorOrCall h
        · exact .missed _ _ .empty

theorem gathers_factor (h : Gathering call) :
    Gathers S Fresh Given (fun _ => Fresh) (factor call) := by
  unfold factor
  refine (gathers_simpleFactor h).bind fun value u hv => .ifAt ?_ ?_
  · refine (Gathers.advance (by decide)).skip fun _ => (gathers_qualident _).bind fun t v ht => ?_
    exact .pure (by simpa using (hv.append ht).branch (k := .typeConversion) rfl) fun _ => id
  · exact .pure (by simpa using hv) fun _ => id

theorem gathers_simpleTerm (h : Gathering call) :
    Gathers S Fresh Given (fun _ => Fresh) (simpleTerm call) := by
  refine .ifAt ?_ (gathers_factor h)
  refine (Gathers.advance (by decide)).skip fun _ => (gathers_factor h).bind fun x u hx => ?_
  exact .pure (by simpa using hx.branch (k := .not) rfl) fun _ => id

/-- The tokens of the operators of a level are words or signs, and none makes a placeholder. -/
def IsLevel (kind? : Token → Option Kind) : Prop :=
  ∀ t k, kind? t = some k → t.IsInner ∧ (k == .empty) = false

theorem isLevel_relationKind? : IsLevel relationKind? := by
  intro t k h
  revert h
  cases t <;> rintro ⟨⟩ <;> decide

theorem isLevel_additiveKind? : IsLevel additiveKind? := by
  intro t k h
  revert h
  cases t <;> rintro ⟨⟩ <;> decide

theorem isLevel_multiplicativeKind? : IsLevel multiplicativeKind? := by
  intro t k h
  revert h
  cases t <;> rintro ⟨⟩ <;> decide

theorem gathers_operatorRound {kind? : Token → Option Kind} (hkind : IsLevel kind?)
    {operand : Parser Node}
    (ho : Gathers (fun _ => True) Fresh Given (fun _ => Fresh) operand) {left : Node}
    {u : List Entry} (hl : Given left u) :
    Gathers S Fresh (fun x v => x.Holds fun n => Given n (u ++ v))
      (Round.Leaves (fun _ => Fresh) fun _ => Fresh) (operatorRound kind? operand left) := by
  refine .choose fun t _ => ?_
  split
  · exact .pure (show Given left (u ++ []) by simpa using hl) fun _ => id
  · next k hk =>
    obtain ⟨hinner, hfilled⟩ := hkind t k hk
    refine (Gathers.advance hinner).skip fun _ => ho.bind fun right v hr => ?_
    exact .pure (by simpa using (hl.append hr).branch hfilled) fun _ => id

/-- Operands with operators of a level between them. -/
theorem gathers_operators {kind? : Token → Option Kind} (hkind : IsLevel kind?)
    {first operand : Parser Node} (hf : Gathers S Fresh Given (fun _ => Fresh) first)
    (ho : Gathers (fun _ => True) Fresh Given (fun _ => Fresh) operand) :
    Gathers S Fresh Given (fun _ => Fresh)
      (do loop (operatorRound kind? operand) (← first)) :=
  hf.bind fun _ _ hl =>
    .loop (I := Given) (M := fun _ => Fresh)
      (fun _ _ hl => gathers_operatorRound hkind ho hl) hl

theorem gathers_term (h : Gathering call) : Gathers S Fresh Given (fun _ => Fresh) (term call) :=
  gathers_operators isLevel_multiplicativeKind? (gathers_simpleTerm h) (gathers_simpleTerm h)

theorem gathers_signedTerm (h : Gathering call) :
    Gathers S Fresh Given (fun _ => Fresh) (signedTerm call) := by
  refine .choose fun t _ => ?_
  split
  · refine (Gathers.advance (by decide)).skip fun _ => (gathers_term h).bind fun x u hx => ?_
    exact .pure (by simpa using hx.branch (k := .negation) rfl) fun _ => id
  · exact (Gathers.advance (by decide)).skip fun _ => gathers_term h
  · exact gathers_term h

theorem gathers_simpleExpression (h : Gathering call) :
    Gathers S Fresh Given (fun _ => Fresh) (simpleExpression call) :=
  gathers_operators isLevel_additiveKind? (gathers_signedTerm h) (gathers_term h)

theorem gathers_expression (h : Gathering call) :
    Gathers S Fresh Given (fun _ => Fresh) (expression call) := by
  unfold expression
  refine (gathers_simpleExpression h).bind fun left u hl => .choose fun t _ => ?_
  split
  · exact .pure (by simpa using hl) fun _ => id
  · next k hk =>
    obtain ⟨hinner, hfilled⟩ := isLevel_relationKind? t k hk
    refine (Gathers.advance hinner).skip fun _ => ?_
    refine (gathers_simpleExpression h).bind fun right v hr => ?_
    exact .pure (by simpa using (hl.append hr).branch hfilled) fun _ => id

end Expressions

/-! ## Types -/

section Types

/-- The type that a type is based on, between two words or signs, which may be left out. -/
theorem gathers_base {opener closer : Token} (ho : opener.IsInner) (hc : closer.IsInner)
    (r s : TokenSet) :
    Gathers S Fresh Given (fun _ => Fresh)
      (ifAt opener (do advance; let base ← qualident r; expect closer s; return base)
        (return .empty)) := by
  refine .ifAt ?_ (.pure .empty fun _ => id)
  refine (Gathers.advance ho).skip fun _ => (gathers_qualident r).bind fun b u hb => ?_
  refine (Gathers.expect hc s).skip fun _ => ?_
  exact .pure (by simpa using hb) fun _ => id

theorem gathers_enumBase : Gathers S Fresh Given (fun _ => Fresh) enumBase :=
  gathers_base (by decide) (by decide) _ _

theorem gathers_enumType : Gathers (· = .lParen) E Given (fun _ => Fresh) enumType := by
  unfold enumType
  refine (Gathers.advance (by decide)).skip fun _ => gathers_enumBase.bind fun base u hb => ?_
  refine (gathers_identList _).bind fun values v hv => ?_
  refine (Gathers.expect (by decide) _).skip fun _ => ?_
  exact .pure (by simpa using (hb.append hv).branch (k := .enumType) rfl) fun _ => id

theorem gathers_aliasType : Gathers (· = .kwAlias) E Given (fun _ => Fresh) aliasType := by
  unfold aliasType
  refine (Gathers.advance (by decide)).skip fun _ => ?_
  refine (Gathers.expect (by decide) _).skip fun _ => (gathers_qualident _).bind fun b u hb => ?_
  exact .pure (by simpa using hb.branch (k := .aliasType) rfl) fun _ => id

theorem gathers_setType : Gathers (· = .kwSet) E Given (fun _ => Fresh) setType := by
  unfold setType
  refine (Gathers.advance (by decide)).skip fun _ => ?_
  refine (Gathers.expect (by decide) _).skip fun _ => ?_
  refine (Gathers.ifAt gathers_enumType (gathers_qualident _)).bind fun base u hb => ?_
  exact .pure (by simpa using hb.branch (k := .setType) rfl) fun _ => id

/-! ### Formal types -/

theorem gathers_parameterType (r : TokenSet) :
    Gathers S Fresh Given (fun _ => Fresh) (parameterType r) := by
  refine .ifAt ?_ (gathers_qualident r)
  refine (Gathers.advance (by decide)).skip fun _ => ?_
  refine (Gathers.expect (by decide) _).skip fun _ => (gathers_qualident r).bind fun b u hb => ?_
  exact .pure (by simpa using hb.branch (k := .openArray) rfl) fun _ => id

theorem gathers_formalType (r : TokenSet) :
    Gathers S Fresh Given (fun _ => Fresh) (formalType r) := by
  refine .choose fun t _ => ?_
  split
  · refine (Gathers.advance (by decide)).skip fun _ => ?_
    refine (Gathers.expect (by decide) _).skip fun _ => ?_
    refine (gathers_parameterType r).bind fun inner u hi => ?_
    exact .pure (by simpa using hi.branch (k := .argumentList) rfl) fun _ => id
  · refine (Gathers.advance (by decide)).skip fun _ => ?_
    refine (gathers_parameterType r).bind fun inner u hi => ?_
    exact .pure (by simpa using hi.branch (k := .castParameter) rfl) fun _ => id
  · exact gathers_parameterType r

theorem gathers_formalTypeList : Gathers S Fresh Given (fun _ => Fresh) formalTypeList := by
  refine .ifAt ((Gathers.advance (by decide)).skip fun _ => .pure .empty fun _ => id) ?_
  refine (Gathers.separated (by decide) (gathers_formalType _)).bind ?_
  intro types u ht
  refine (Gathers.expect (by decide) _).skip fun _ => ?_
  exact .pure (by simpa using ht.branch (k := .formalTypeList) rfl) fun _ => id

theorem gathers_procedureType :
    Gathers (· = .kwProcedure) E Given (fun _ => Fresh) procedureType := by
  unfold procedureType
  refine (Gathers.advance (by decide)).skip fun _ => ?_
  refine (gathers_optionalAt (by decide) (fun _ => id) gathers_formalTypeList).bind ?_
  intro parameters u hp
  refine (gathers_optionalAt (by decide) (fun _ => id) (gathers_qualident _)).bind ?_
  intro result v hr
  exact .pure (by simpa using (hp.append hr).branch (k := .procedureType) rfl) fun _ => id

variable {call : Call}

theorem Gathering.type (h : Gathering call) :
    Gathers S Fresh Given (fun _ => Free) (call .type) :=
  Gathers.whenAt (h .type) fun _ _ => trivial

theorem gathers_subrangeType (h : Gathering call) :
    Gathers (· = .lBracket) E Given (fun _ => Fresh) (subrangeType call) := by
  unfold subrangeType
  refine (Gathers.advance (by decide)).skip fun _ => ?_
  refine (Gathering.expression h).bind fun low u hl => ?_
  refine (Gathers.expect (by decide) _).skip fun _ => ?_
  refine (Gathering.expression h).bind fun high v hh => ?_
  refine (Gathers.expect (by decide) _).skip fun _ => ?_
  refine (gathers_optionalAt (by decide) (fun _ => id) (gathers_qualident _)).bind ?_
  intro base w hb
  refine .pure ?_ fun _ => id
  simpa using ((hl.append hh).append hb).branch (k := .subrangeType) rfl

theorem gathers_arrayType (h : Gathering call) :
    Gathers (· = .kwArray) E Given (fun _ => Free) (arrayType call) := by
  unfold arrayType
  refine (Gathers.advance (by decide)).skip fun _ => ?_
  refine (gathers_expressionList h).bind fun dimensions u hd => ?_
  refine (Gathers.expect (by decide) _).skip fun _ => ?_
  refine (Gathering.type h).bind fun element v he => ?_
  exact .pure (by simpa using (hd.append he).branch (k := .arrayType) rfl) fun _ => id

theorem gathers_pointerType (h : Gathering call) :
    Gathers (· = .kwPointer) E Given (fun _ => Free) (pointerType call) := by
  unfold pointerType
  refine (Gathers.advance (by decide)).skip fun _ => ?_
  refine (Gathers.expect (by decide) _).skip fun _ => ?_
  refine (Gathering.type h).bind fun target u ht => ?_
  exact .pure (by simpa using ht.branch (k := .pointerType) rfl) fun _ => id

/-! ### Field lists -/

theorem gathers_fields (h : Gathering call) :
    Gathers S Fresh Given (fun _ => Free) (fields call) := by
  unfold fields
  refine (gathers_identList _).bind fun names u hn => ?_
  refine (Gathers.expect (by decide) _).skip fun _ => ?_
  refine (Gathering.type h).bind fun type v ht => ?_
  exact .pure (by simpa using (hn.append ht).branch (k := .fieldList) rfl) fun _ => id

variable (o : ParseOptions)

theorem gathers_fieldList (h : Gathering call) :
    Gathers S Fresh Given (fun _ => Free) (fieldList o call) := by
  refine .choose fun t _ => ?_
  dsimp only
  split
  · exact gathers_fields h
  · split
    · next ht => exact (h .variantFields).whenAt (by rintro _ rfl; exact ht.1)
    · next hi hc =>
      refine (Gathers.expectAny ?_ _).skip fun _ => .pure .empty Fresh.free
      rintro _ rfl hs
      rcases fieldListStartOf_cases hs with hs' | hs'
      · exact hi hs'
      · exact hc ⟨hs', hs⟩

theorem gathers_fieldListSequence (h : Gathering call) :
    Gathers S Fresh Given (fun _ => Free) (fieldListSequence o call) := by
  unfold fieldListSequence
  refine .ifAtAny ((gathers_missingItems _).behind fun _ => Fresh.free) ?_
  refine (gathers_semicolonList o _ _ Fresh.free (gathers_fieldList o h)).bind ?_
  intro lists u hl
  exact .pure (by simpa using hl.listNode (k := .fieldListSequence) rfl) fun _ => id

theorem gathers_variant (h : Gathering call) :
    Gathers S Fresh Given (fun _ => Free) (variant o call) := by
  unfold variant
  refine (gathers_caseLabelList h).bind fun labels u hl => ?_
  refine (Gathers.expect (by decide) _).skip fun _ => ?_
  refine (gathers_fieldListSequence o h).bind fun fields v hf => ?_
  exact .pure (by simpa using (hl.append hf).branch (k := .variant) rfl) fun _ => id

theorem gathers_variantFieldList (h : Gathering call) :
    Gathers (· = .kwCase) E Given (fun _ => Free) (variantFieldList o call) := by
  have htag : Gathers (fun _ => True) Fresh Given (fun _ => Fresh)
      (ifAtAny identStart (leaf .ident) (return .empty)) :=
    .ifAtAny (.leaf Gathers.terminalKind?_of_mem_identStart) (.pure .empty fun _ => id)
  unfold variantFieldList
  refine (Gathers.advance (by decide)).skip fun _ => htag.bind fun tag u htag => ?_
  refine (Gathers.expect (by decide) _).skip fun _ => ?_
  refine (gathers_qualident _).bind fun tagType v htype => ?_
  refine (Gathers.expect (by decide) _).skip fun _ => ?_
  refine .skip (C := fun _ => Fresh) (.ifAt (.advance (by decide)) (.pure rfl fun _ => id)) ?_
  intro _
  refine (Gathers.separated (by decide) (gathers_variant o h)).bind ?_
  intro variants w hv
  refine (gathers_optionalAt (by decide) (fun _ => id) (gathers_fieldListSequence o h)).bind ?_
  intro otherwise x ho
  refine (Gathers.expectEnd _).skip fun _ => .pure ?_ fun _ _ => trivial
  have hlist := hv.branch (k := .variantList) rfl
  simpa using (((htag.append htype).append hlist).append ho).branch (k := .variantFieldList) rfl

theorem gathers_recordBase : Gathers S Fresh Given (fun _ => Fresh) recordBase :=
  gathers_base (by decide) (by decide) _ _

theorem gathers_recordBody (h : Gathering call) :
    Gathers S Fresh Given (fun _ => Free) (recordBody o call) := by
  unfold recordBody
  split
  · refine (gathers_fieldListSequence o h).bind fun fields u hf => ?_
    exact .pure (by simpa using hf.branch (k := .recordType) rfl) fun _ => id
  · refine gathers_recordBase.bind fun base u hb => ?_
    refine (gathers_fieldListSequence o h).bind fun fields v hf => ?_
    exact .pure (by simpa using (hb.append hf).branch (k := .extensibleRecordType) rfl) fun _ => id

theorem gathers_recordType (h : Gathering call) :
    Gathers (· = .kwRecord) E Given (fun _ => Free) (recordType o call) := by
  unfold recordType
  refine (Gathers.advance (by decide)).skip fun _ => ?_
  refine (gathers_recordBody o h).bind fun node u hn => ?_
  refine (Gathers.expectEnd _).skip fun _ => .pure ?_ fun _ _ => trivial
  simpa using hn

theorem gathers_typeDenoter (h : Gathering call) :
    Gathers S Fresh Given (fun _ => Free) (typeDenoter o call) := by
  refine .choose fun t _ => ?_
  split
  · exact gathers_aliasType.behind fun _ => Fresh.free
  · exact (gathers_subrangeType h).behind fun _ => Fresh.free
  · exact gathers_enumType.behind fun _ => Fresh.free
  · exact gathers_setType.behind fun _ => Fresh.free
  · exact gathers_arrayType h
  · exact gathers_recordType o h
  · exact gathers_pointerType h
  · exact gathers_procedureType.behind fun _ => Fresh.free
  · split
    · exact (gathers_qualident _).behind fun _ => Fresh.free
    · next hi =>
      refine (Gathers.expectAny ?_ _).skip fun _ => .pure .empty Fresh.free
      rintro _ rfl hs
      rcases typeStart_cases hs with hs | hs | hs | hs | hs | hs | hs | hs | hs
      · exact hi hs
      all_goals contradiction

end Types

/-! ## Statements -/

section Statements

variable (o : ParseOptions) {call : Call}

theorem Gathering.statement (h : Gathering call) :
    Gathers S Fresh Given (fun _ => Free) (call .statement) :=
  Gathers.whenAt (h .statement) fun _ _ => trivial

theorem gathers_statementSequence (h : Gathering call) :
    Gathers S Fresh Given (fun _ => Free) (statementSequence o call) := by
  unfold statementSequence
  refine .ifAtAny ((gathers_missingItems _).behind fun _ => Fresh.free) ?_
  refine (gathers_semicolonList o _ _ Fresh.free (Gathering.statement h)).bind ?_
  intro statements u hs
  exact .pure (by simpa using hs.listNode (k := .statementSequence) rfl) fun _ => id

theorem gathers_assignmentOrCall (h : Gathering call) :
    Gathers S Fresh Given (fun _ => Fresh) (assignmentOrCall call) := by
  unfold assignmentOrCall
  refine (gathers_designator h).bind fun d u hd => .choose fun t _ => ?_
  split
  · refine (Gathers.advance (by decide)).skip fun _ => ?_
    refine (Gathering.expression h).bind fun value v hv => ?_
    exact .pure (by simpa using (hd.append hv).branch (k := .assignment) rfl) fun _ => id
  · refine (gathers_actualParameters h).bind fun arguments v ha => ?_
    exact .pure (by simpa using (hd.append ha).branch (k := .procedureCall) rfl) fun _ => id
  · exact .pure (by simpa using (hd.append .empty).branch (k := .procedureCall) rfl) fun _ => id

/-! ### Branches -/

theorem gathers_thenBranch (h : Gathering call) :
    Gathers S E Given (fun _ => Free) (thenBranch o call) := by
  unfold thenBranch
  refine (Gathers.accept (by decide) _).skip fun found => ?_
  split
  · exact gathers_statementSequence o h
  · exact .pure .empty Fresh.free

theorem gathers_elseBranch (h : Gathering call) :
    Gathers S E Given (fun _ => Free) (elseBranch o call) :=
  gathers_optionalAt (by decide) (fun _ _ => trivial) (gathers_statementSequence o h)

theorem gathers_elsifBranch (h : Gathering call) :
    Gathers (· = .kwElsif) E Given (fun _ => Free) (elsifBranch o call) := by
  unfold elsifBranch
  refine (Gathers.advance (by decide)).skip fun _ => ?_
  refine (Gathering.expression h).bind fun condition u hc => ?_
  refine (gathers_thenBranch o h).bind fun body v hb => ?_
  exact .pure (by simpa using (hc.append hb).branch (k := .elsifBranch) rfl) fun _ => id

theorem gathers_ifStatement (h : Gathering call) :
    Gathers (· = .kwIf) E Given (fun _ => Free) (ifStatement o call) := by
  have hmem (t : Token) (ht : t ∈ tokens [.kwElsif]) : t = .kwElsif := by
    revert ht
    cases t <;> decide
  unfold ifStatement
  refine (Gathers.advance (by decide)).skip fun _ => ?_
  refine (Gathering.expression h).bind fun condition u hc => ?_
  refine (gathers_thenBranch o h).bind fun body v hb => ?_
  refine (Gathers.whileAtAny ((gathers_elsifBranch o h).whenAt hmem)).bind fun elsifs w he => ?_
  refine (gathers_elseBranch o h).bind fun otherwise x ho => ?_
  refine (Gathers.expectEnd _).skip fun _ => .pure ?_ fun _ _ => trivial
  have hlist := he.listNode (k := .elsifList) rfl
  simpa using (((hc.append hb).append hlist).append ho).branch (k := .ifStatement) rfl

theorem gathers_caseBranch (h : Gathering call) :
    Gathers S Fresh Given (fun _ => Free) (caseBranch o call) := by
  unfold caseBranch
  refine (gathers_caseLabelList h).bind fun labels u hl => ?_
  refine (Gathers.expect (by decide) _).skip fun _ => ?_
  refine (gathers_statementSequence o h).bind fun body v hb => ?_
  exact .pure (by simpa using (hl.append hb).branch (k := .caseBranch) rfl) fun _ => id

/-- In front of the first branch, which needs no bar, `END` was not read last. -/
theorem gathers_caseRound (h : Gathering call) {found : List Node} {u : List Entry}
    (hf : Gathers.Found found u) :
    Gathers S (fun b => found = [] → Fresh b)
      (fun x v => x.Holds fun found => Gathers.Found found (u ++ v))
      (Round.Leaves (fun found b => found = [] → Fresh b) fun _ => Free)
      (caseRound o call found) := by
  have hbranch {T : Token → Prop} :
      Gathers T Fresh (fun x v => x.Holds fun found => Gathers.Found found (u ++ v))
        (Round.Leaves (fun found b => found = [] → Fresh b) fun _ => Free)
        (do return .more ((← caseBranch o call) :: found)) := by
    refine (gathers_caseBranch o h).bind fun branch v hb => .pure ?_ ?_
    · simpa [Gathers.Found] using hf.append hb
    · rintro b - hnil
      cases hnil
  have hdone {T : Token → Prop} {F : Bool → Prop} :
      Gathers T F (fun x v => x.Holds fun found => Gathers.Found found (u ++ v))
        (Round.Leaves (fun found b => found = [] → Fresh b) fun _ => Free)
        (return .done found) := .pure (by simpa using hf) fun _ _ => trivial
  refine .ifAt ((Gathers.advance (by decide)).skip fun _ => hbranch) ?_
  split
  · next hnil =>
    refine .ifAtAny ?_ hdone
    refine hbranch.mono (fun _ => id) ?_ (fun _ _ => id) fun _ _ => id
    exact fun b hb => hb (List.isEmpty_iff.1 hnil)
  · exact hdone

theorem gathers_caseStatement (h : Gathering call) :
    Gathers (· = .kwCase) E Given (fun _ => Free) (caseStatement o call) := by
  unfold caseStatement
  refine (Gathers.advance (by decide)).skip fun _ => ?_
  refine (Gathering.expression h).bind fun selector u hs => ?_
  refine (Gathers.expect (by decide) _).skip fun _ => ?_
  have hloop : Gathers (fun _ => True) Fresh (fun b v => Gathers.Found b ([] ++ v))
      (fun _ => Free) (loop (caseRound o call) []) := by
    refine Gathers.mono (Gathers.loop
      (fun found u hf => gathers_caseRound o h hf) (u := []) .nil) (fun _ => id) ?_
      (fun _ _ => id) fun _ _ => id
    exact fun _ hb _ => hb
  refine hloop.bind fun branches v hb => ?_
  refine (gathers_elseBranch o h).bind fun otherwise w ho => ?_
  refine (Gathers.expectEnd _).skip fun _ => .pure ?_ fun _ _ => trivial
  have hlist := hb.listNode (k := .caseList) rfl
  simpa using ((hs.append hlist).append ho).branch (k := .caseStatement) rfl

/-! ### Loops -/

theorem gathers_loopStatement (h : Gathering call) :
    Gathers (· = .kwLoop) E Given (fun _ => Free) (loopStatement o call) := by
  unfold loopStatement
  refine (Gathers.advance (by decide)).skip fun _ => ?_
  refine (gathers_statementSequence o h).bind fun body u hb => ?_
  refine (Gathers.expectEnd _).skip fun _ => .pure ?_ fun _ _ => trivial
  simpa using hb.branch (k := .loopStatement) rfl

theorem gathers_whileStatement (h : Gathering call) :
    Gathers (· = .kwWhile) E Given (fun _ => Free) (whileStatement o call) := by
  unfold whileStatement
  refine (Gathers.advance (by decide)).skip fun _ => ?_
  refine (Gathering.expression h).bind fun condition u hc => ?_
  refine (Gathers.expect (by decide) _).skip fun _ => ?_
  refine (gathers_statementSequence o h).bind fun body v hb => ?_
  refine (Gathers.expectEnd _).skip fun _ => .pure ?_ fun _ _ => trivial
  simpa using (hc.append hb).branch (k := .whileStatement) rfl

theorem gathers_repeatStatement (h : Gathering call) :
    Gathers (· = .kwRepeat) E Given (fun _ => Fresh) (repeatStatement o call) := by
  unfold repeatStatement
  refine (Gathers.advance (by decide)).skip fun _ => ?_
  refine (gathers_statementSequence o h).bind fun body u hb => ?_
  refine (Gathers.expect (by decide) _).skip fun _ => ?_
  refine (Gathering.expression h).bind fun condition v hc => ?_
  exact .pure (by simpa using (hb.append hc).branch (k := .repeatStatement) rfl) fun _ => id

theorem gathers_forStatement (h : Gathering call) :
    Gathers (· = .kwFor) E Given (fun _ => Free) (forStatement o call) := by
  unfold forStatement
  refine (Gathers.advance (by decide)).skip fun _ => (Gathers.ident _).bind fun c u hc => ?_
  refine (Gathers.expect (by decide) _).skip fun _ => ?_
  refine (Gathering.expression h).bind fun first v hf => ?_
  refine (Gathers.expect (by decide) _).skip fun _ => ?_
  refine (Gathering.expression h).bind fun last w hl => ?_
  refine (gathers_optionalAt (by decide) (fun _ => id) (Gathering.expression h)).bind ?_
  intro step x hs
  refine (Gathers.expect (by decide) _).skip fun _ => ?_
  refine (gathers_statementSequence o h).bind fun body y hb => ?_
  refine (Gathers.expectEnd _).skip fun _ => .pure ?_ fun _ _ => trivial
  simpa using ((((hc.append hf).append hl).append hs).append hb).branch (k := .forStatement) rfl

theorem gathers_returnStatement (h : Gathering call) :
    Gathers (· = .kwReturn) E Given (fun _ => Fresh) (returnStatement call) := by
  unfold returnStatement
  refine (Gathers.advance (by decide)).skip fun _ => ?_
  refine (Gathers.ifAtAny (Gathering.expression h) (.pure .empty fun _ => id)).bind ?_
  intro value u hv
  exact .pure (by simpa using hv.branch (k := .returnStatement) rfl) fun _ => id

theorem gathers_exitStatement : Gathers (· = .kwExit) E Given (fun _ => Fresh) exitStatement :=
  (Gathers.advance (by decide)).skip fun _ => .pure (.bare _) fun _ => id

theorem gathers_of_statementRule? (h : Gathering call) {t : Token} {rule : Parser Node}
    (hr : statementRule? o call t = some rule) :
    Gathers (· = t) Fresh Given (fun _ => Free) rule := by
  unfold statementRule? at hr
  split at hr
  · cases hr; exact gathers_ifStatement o h
  · cases hr; exact gathers_caseStatement o h
  · cases hr; exact gathers_loopStatement o h
  · cases hr; exact gathers_whileStatement o h
  · cases hr; exact (gathers_repeatStatement o h).behind fun _ => Fresh.free
  · cases hr; exact gathers_forStatement o h
  · cases hr; exact (gathers_returnStatement h).behind fun _ => Fresh.free
  · cases hr; exact gathers_exitStatement.behind fun _ => Fresh.free
  · split at hr
    · cases hr; exact (gathers_assignmentOrCall h).behind fun _ => Fresh.free
    · cases hr

theorem gathers_statement (h : Gathering call) :
    Gathers S Fresh Given (fun _ => Free) (statement o call) := by
  refine .choose fun t _ => ?_
  split
  · next rule hr =>
    refine (gathers_of_statementRule? o h hr).bind fun node u hn => ?_
    exact (Gathers.count _).skip fun _ => .pure (by simpa using hn) fun _ => id
  · next hr =>
    refine (Gathers.expectAny ?_ _).skip fun _ => .pure .empty Fresh.free
    rintro _ rfl hs
    have hsome := isSome_statementRule? o call hs
    rw [hr] at hsome
    cases hsome

end Statements

/-! ## Declarations -/

section Declarations

variable (o : ParseOptions) {call : Call}

theorem gathers_formalParameters : Gathers S Fresh Given (fun _ => Fresh) formalParameters := by
  have hmode : Gathers (fun _ => True) Fresh (fun k u => (k == .empty) = false ∧ u = [])
      (fun _ => Fresh) parameterMode := by
    refine .choose fun t _ => ?_
    split
    · exact (Gathers.advance (by decide)).skip fun _ => .pure ⟨rfl, rfl⟩ fun _ => id
    · exact (Gathers.advance (by decide)).skip fun _ => .pure ⟨rfl, rfl⟩ fun _ => id
    · exact .pure ⟨rfl, rfl⟩ fun _ => id
  unfold formalParameters
  refine (hmode.whenAt fun _ _ => trivial).bind fun kind u hk => ?_
  obtain ⟨hfilled, rfl⟩ := hk
  refine (gathers_identList _).bind fun names v hn => ?_
  refine (Gathers.expect (by decide) _).skip fun _ => ?_
  refine (gathers_formalType _).bind fun type w ht => ?_
  exact .pure (by simpa using (hn.append ht).branch hfilled) fun _ => id

theorem gathers_formalParameterList :
    Gathers S Fresh Given (fun _ => Fresh) (formalParameterList o) := by
  refine .ifAt ((Gathers.advance (by decide)).skip fun _ => .pure .empty fun _ => id) ?_
  refine (gathers_semicolonList o _ _ (fun _ => id) gathers_formalParameters).bind ?_
  intro parameters u hp
  refine (Gathers.expect (by decide) _).skip fun _ => ?_
  exact .pure (by simpa using hp.branch (k := .formalParameterList) rfl) fun _ => id

theorem gathers_procedureHeader :
    Gathers (· = .kwProcedure) E (fun h u => Carry [h.name, h.parameters, h.result] u)
      (fun _ => Fresh) (procedureHeader o) := by
  unfold procedureHeader
  refine (Gathers.advance (by decide)).skip fun _ => (Gathers.ident _).bind fun name u hn => ?_
  refine (gathers_optionalAt (by decide) (fun _ => id) (gathers_formalParameterList o)).bind ?_
  intro parameters v hp
  refine (gathers_optionalAt (by decide) (fun _ => id) (gathers_qualident _)).bind ?_
  intro result w hr
  exact .pure (by simpa using (hn.append hp).append hr) fun _ => id

theorem gathers_procedureDefinition :
    Gathers (· = .kwProcedure) E Given (fun _ => Fresh) (procedureDefinition o) := by
  unfold procedureDefinition
  refine (gathers_procedureHeader o).bind fun header u hh => ?_
  refine (Gathers.expect (by decide) _).skip fun _ => (Gathers.count _).skip fun _ => ?_
  exact .pure (by simpa using hh.branch (k := .procedureDefinition) rfl) fun _ => id

/-! ### Constants, types and variables -/

theorem gathers_constantDefinition (h : Gathering call) :
    Gathers S Fresh Given (fun _ => Fresh) (constantDefinition call) := by
  unfold constantDefinition
  refine (Gathers.ident _).bind fun name u hn => ?_
  refine (Gathers.expect (by decide) _).skip fun _ => ?_
  refine (Gathering.expression h).bind fun value v hv => (Gathers.count _).skip fun _ => ?_
  exact .pure (by simpa using (hn.append hv).branch (k := .constantDefinition) rfl) fun _ => id

theorem gathers_opaqueType (part : Part) :
    Gathers (· = .kwOpaque) E Given (fun _ => Fresh) (opaqueType part) := by
  unfold opaqueType
  split
  · exact (Gathers.advance (by decide)).skip fun _ => .pure (.bare _) fun _ => id
  · change Gathers _ _ _ _ ((do report (faultAt .opaqueOutsideDefinition (← lookahead))) >>=
      fun _ => advance >>= fun _ => pure (Tree.bare .opaqueType))
    refine .look_bind (fun _ => ⟨(), .inr ⟨_, rfl⟩⟩) fun _ => ?_
    exact (Gathers.advance (by decide)).skip fun _ => .pure (.bare _) fun _ => id

theorem gathers_typeDefinition (h : Gathering call) (part : Part) :
    Gathers S Fresh Given (fun _ => Free) (typeDefinition call part) := by
  unfold typeDefinition
  refine (Gathers.ident _).bind fun name u hn => ?_
  refine (Gathers.expect (by decide) _).skip fun _ => ?_
  refine (Gathers.ifAt ((gathers_opaqueType part).behind fun _ => Fresh.free)
    (Gathering.type h)).bind fun denoter v hd => (Gathers.count _).skip fun _ => ?_
  exact .pure (by simpa using (hn.append hd).branch (k := .typeDefinition) rfl) fun _ => id

theorem gathers_variableDeclaration (h : Gathering call) :
    Gathers S Fresh Given (fun _ => Free) (variableDeclaration call) := by
  unfold variableDeclaration
  refine (gathers_identList _).bind fun names u hn => ?_
  refine (Gathers.expect (by decide) _).skip fun _ => ?_
  refine (Gathering.type h).bind fun type v ht => (Gathers.count _).skip fun _ => ?_
  exact .pure (by simpa using (hn.append ht).branch (k := .variableDeclaration) rfl) fun _ => id

theorem gathers_declarationSection {w : Token} (hw : w.IsInner) {item : Parser Node}
    (hi : Gathers (fun _ => True) Fresh Given (fun _ => D) item) :
    Gathers (· = w) E Carry (fun _ => Fresh) (declarationSection item) := by
  refine (Gathers.advance hw).skip fun _ => .whileAtAny ?_
  refine (hi.whenAt fun _ _ => trivial).bind fun node u hn => ?_
  refine (Gathers.expect (by decide) _).skip fun _ => ?_
  exact .pure (by simpa using hn) fun _ => id

/-! ### Lists of declarations -/

theorem gathers_procedureIn (h : Gathering call) (part : Part) :
    Gathers (· = .kwProcedure) Fresh Given (fun _ => Fresh) (procedureIn o call part) := by
  cases part with
  | definitions => exact gathers_procedureDefinition o
  | declarations => exact h .procedure

/-- The sections of a list of declarations, with the last one first. -/
abbrev Sections (found : List (List Node)) (u : List Entry) : Prop :=
  Carry found.reverse.flatten u

theorem gathers_declarationRound (h : Gathering call) (part : Part) {found : List (List Node)}
    {u : List Entry} (hf : Sections found u) :
    Gathers S Fresh (fun x v => x.Holds fun found => Sections found (u ++ v))
      (Round.Leaves (fun _ => Fresh) fun _ => Fresh) (declarationRound o call part found) := by
  have hsection {T : Token → Prop} {m : Parser (List Node)}
      (hm : Gathers T Fresh Carry (fun _ => Fresh) m) :
      Gathers T Fresh (fun x v => x.Holds fun found => Sections found (u ++ v))
        (Round.Leaves (fun _ => Fresh) fun _ => Fresh) (do return .more ((← m) :: found)) :=
    hm.bind fun nodes v hn => .pure (by simpa [Sections] using hf.append hn) fun _ => id
  refine .choose fun t _ => ?_
  split
  · exact hsection (gathers_declarationSection (by decide) (gathers_constantDefinition h))
  · exact hsection (gathers_declarationSection (by decide) (gathers_typeDefinition h part))
  · exact hsection (gathers_declarationSection (by decide) (gathers_variableDeclaration h))
  · refine (gathers_procedureIn o h part).bind fun node v hn => ?_
    exact .pure (by simpa [Sections] using hf.append hn) fun _ => id
  · next hconst htype hvar hproc =>
    refine .ifAtAny (.pure (by simpa [Sections] using hf) fun _ => id) ?_
    refine (Gathers.expectAny ?_ _).skip fun _ => .pure (by simpa [Sections] using hf) fun _ => id
    rintro _ ⟨rfl, hc⟩ hs
    exact (TokenBitmap.mem_union.1 hs).elim (not_mem_declarationStart hconst htype hvar hproc) hc

theorem gathers_declarationList (h : Gathering call) (part : Part) :
    Gathers S Fresh Given (fun _ => Fresh) (declarationList o call part) := by
  unfold declarationList
  have hk : (part.kind == .empty) = false := by cases part <;> rfl
  refine (Gathers.loop (I := Sections) (M := fun _ => Fresh)
    (fun _ _ hf => gathers_declarationRound o h part hf) (a := []) (u := []) Carry.nil).bind ?_
  intro sections u hs
  exact .pure (by simpa using hs.listNode hk) fun _ => id

theorem gathers_block (h : Gathering call) :
    Gathers S Fresh Given (fun _ => Ended) (block o call) := by
  unfold block
  refine (gathers_declarationList o h _).bind fun declarations u hd => ?_
  refine (gathers_optionalAt (by decide) Fresh.free (gathers_statementSequence o h)).bind ?_
  intro body v hb
  refine (Gathers.expectEnd _).skip fun _ => .pure ?_ fun _ => id
  simpa using (hd.append hb).branch (k := .block) rfl

theorem gathers_procedureDeclaration (h : Gathering call) :
    Gathers (· = .kwProcedure) E Given (fun _ => Fresh) (procedureDeclaration o call) := by
  unfold procedureDeclaration
  refine (gathers_procedureHeader o).bind fun header u hh => ?_
  refine (Gathers.expect (by decide) _).skip fun _ => (gathers_block o h).bind fun body v hb => ?_
  refine (Gathers.closing _ _).skip fun _ => (Gathers.expect (by decide) _).skip fun _ => ?_
  refine (Gathers.count _).skip fun _ => .pure ?_ fun _ => id
  simpa using (hh.append hb).branch (k := .procedureDeclaration) rfl

end Declarations

/-! ## Nested constructs -/

/-- The nested constructs gather their values, however many levels are left. -/
theorem gathering_nested (o : ParseOptions) (levels : Nat) : Gathering (nested o levels) := by
  induction levels with
  | zero =>
    intro x p a q _ _ hm
    cases hm
  | succ levels ih =>
    intro x
    cases x with
    | expression => exact gathers_expression ih
    | statement => exact gathers_statement o ih
    | type => exact gathers_typeDenoter o ih
    | procedure => exact gathers_procedureDeclaration o ih
    | variantFields => exact gathers_variantFieldList o ih

/-! ## Compilation units -/

section Units

theorem gathers_unqualifiedImport :
    Gathers (· = .kwFrom) E Given (fun _ => Fresh) unqualifiedImport := by
  unfold unqualifiedImport
  refine (Gathers.advance (by decide)).skip fun _ => (Gathers.ident _).bind fun m u hm => ?_
  refine (Gathers.expect (by decide) _).skip fun _ => ?_
  refine (gathers_identList _).bind fun names v hn => ?_
  exact .pure (by simpa using (hm.append hn).branch (k := .unqualifiedImport) rfl) fun _ => id

theorem gathers_qualifiedImport :
    Gathers (· = .kwImport) E Given (fun _ => Fresh) qualifiedImport := by
  unfold qualifiedImport
  refine (Gathers.advance (by decide)).skip fun _ => ?_
  refine (Gathers.separated (by decide) (Gathers.ident _)).bind ?_
  intro modules u hm
  exact .pure (by simpa using hm.filter.branch (k := .qualifiedImport) rfl) fun _ => id

theorem gathers_importClause :
    Gathers (· ∈ importStart) E Given (fun _ => Fresh) importClause := by
  have himport (t : Token) (ht : t ∈ importStart ∧ t ≠ .kwFrom) : t = .kwImport := by
    revert ht
    cases t <;> decide
  unfold importClause
  refine (Gathers.ifAt gathers_unqualifiedImport (gathers_qualifiedImport.whenAt himport)).bind ?_
  intro node u hn
  refine (Gathers.expect (by decide) _).skip fun _ => ?_
  exact .pure (by simpa using hn) fun _ => id

theorem gathers_importList : Gathers S Fresh Given (fun _ => Fresh) importList := by
  unfold importList
  refine (Gathers.whileAtAny gathers_importClause).bind fun imports u hi => ?_
  exact .pure (by simpa using hi.listNode (k := .importList) rfl) fun _ => id

theorem gathers_moduleHeader : Gathers S E Given (fun _ => Fresh) moduleHeader := by
  unfold moduleHeader
  refine (Gathers.expect (by decide) _).skip fun _ => (Gathers.ident _).bind fun name u hn => ?_
  refine (Gathers.expect (by decide) _).skip fun _ => ?_
  exact .pure (by simpa using hn) fun _ => id

/-- Behind the dot of a unit the source must be at its end. -/
theorem gathers_unitClosing (name : Node) :
    Gathers S Ended Nothing (fun _ => Free) (unitClosing name) := by
  unfold unitClosing
  refine (Gathers.closing _ _).skip fun _ => (Gathers.expect (by decide) _).skip fun _ => ?_
  refine .ifAt (.pure rfl fun _ _ => trivial) ?_
  exact (Gathers.unexpected _).skip fun _ => Gathers.skipTo _

variable (o : ParseOptions)

theorem gathers_definitionModule :
    Gathers (· = .kwDefinition) E Given (fun _ => Free) (definitionModule o) := by
  have h : Gathering (outermost o) := gathering_nested o o.maxNesting
  unfold definitionModule
  refine (Gathers.advance (by decide)).skip fun _ => gathers_moduleHeader.bind fun name u hn => ?_
  refine gathers_importList.bind fun imports v hi => ?_
  refine (gathers_declarationList o h _).bind fun definitions w hd => ?_
  refine (Gathers.expectEnd _).skip fun _ => (gathers_unitClosing name).skip fun _ => ?_
  refine .pure ?_ fun _ => id
  simpa using ((hn.append hi).append hd).branch (k := .definitionModule) rfl

theorem gathers_programModule {k : Kind} (hk : (k == .empty) = false) :
    Gathers S E Given (fun _ => Free) (programModule o k) := by
  have h : Gathering (outermost o) := gathering_nested o o.maxNesting
  unfold programModule
  refine gathers_moduleHeader.bind fun name u hn => ?_
  refine gathers_importList.bind fun imports v hi => ?_
  refine (gathers_block o h).bind fun body w hb => ?_
  refine (gathers_unitClosing name).skip fun _ => .pure ?_ fun _ => id
  simpa using ((hn.append hi).append hb).branch hk

theorem gathers_unitRule (t : Token) :
    Gathers (· = t) E Given (fun _ => Free) (unitRule o t) := by
  unfold unitRule
  split
  · exact gathers_definitionModule o
  · exact (Gathers.advance (by decide)).skip fun _ => gathers_programModule o rfl
  · exact gathers_programModule o rfl

end Units

end Grammar

/-! ## The tree of a source -/

section

variable {o : ParseOptions} {kind : UnitKind} {text : String}

/-- What the lexical rules find is no surprise to the grammar. -/
theorem surprises_startOfUnit (o : LexicalOptions) (text : String) :
    (startOfUnit o text).surprises = 0 := by
  rw [Progress.surprises, Progress.recorded, List.countP_eq_zero]
  intro d hd
  have hlex : d.phase = .lexical := by
    refine onlyLexical_reports o text d ?_
    rw [← foreseen_startOfUnit]
    exact List.mem_append_left _ hd
  rw [decide_eq_true_iff]
  intro hcode
  rw [Diagnostic.phase, hcode] at hlex
  cases hlex

/-- A parse with a tree has read the whole source, and the tree has the values gathered on the
way. -/
theorem gathered_values_of_parse {out : ParseOutput} (h : parse o kind text = .ok out) :
    out.tree.values.Sublist (entries (tokenize o.lexical text).semantic) ∧
      ((∀ d ∈ out.reports, d.code ≠ .unexpectedSymbol) →
        out.tree.values = entries (notBehindEnd false (tokenize o.lexical text).semantic)) := by
  obtain ⟨q, hx, hreports⟩ := exec_of_parse_eq_ok h
  have hstart : (startOfUnit o.lexical text).lookahead.token ∈ Grammar.startOf kind := by
    by_contra hnot
    rw [exec_compilationUnit_of_not_mem hnot] at hx
    cases hx
  rw [exec_compilationUnit_of_mem hstart] at hx
  have hclosed := closed_startOfUnit o.lexical text
  obtain ⟨w, u, hreads, hsub, hcarry, hall⟩ :=
    Grammar.gathers_unitRule (E := Fresh) o _ _ _ _ hclosed rfl hx
  -- what is left is the end of the source
  have hend := endsAtEnd_unitRule o _ _ _ _ hclosed hx
  have hrest : q.rest = [q.lookahead] := by
    rw [Progress.rest, hreads.closed.ahead_eq_nil_iff.2 hend]
    rfl
  have hseen : (tokenize o.lexical text).semantic = w ++ [q.lookahead] := by
    rw [← rest_startOfUnit, hreads.rest, hrest]
  have hlast (b : Bool) := entries_notBehindEnd_end b hend
  have hvalues : out.tree.values = u := by simpa using hcarry.values
  rw [hseen, hvalues, entries_append, notBehindEnd_append, entries_append, hlast,
    List.append_nil]
  refine ⟨hsub.trans (List.sublist_append_left _ _), fun hclean => ?_⟩
  have hzero : q.surprises = 0 := by
    rw [Progress.surprises, Progress.recorded, ← hreports, List.countP_eq_zero]
    intro d hd
    simpa using hclean d hd
  exact (hall (hzero.trans (surprises_startOfUnit _ _).symm) false rfl).1

/-- The table of a parse is the table of the source. -/
theorem table_of_parse {out : ParseOutput} (h : parse o kind text = .ok out) :
    out.table = (tokenize o.lexical text).table := by
  rw [parse_eq_outcomeOf] at h
  unfold outcomeOf at h
  split at h
  · cases h
    rfl
  · cases h

theorem isTrivia_eq_false_of_mem_semantic {t : Tokenized} {s : Symbol} (h : s ∈ t.semantic) :
    s.token.isTrivia = false := by
  simpa using (List.mem_filter.1 h).2

/-- No symbol is lost, used twice or moved on its way into a tree. The values of the tree are some
of the symbols of the source that have a lexeme, in their order; the token of a symbol settles the
kind of its node, and the text of the node is that of the symbol. Where no symbol was unexpected,
all of them are values but the names that close a unit or a procedure. -/
theorem values_of_parse {out : ParseOutput} (h : parse o kind text = .ok out) :
    (out.tree.values.map Prod.snd).Sublist
        ((tokenize o.lexical text).semantic.filter (·.token.hasLexeme)) ∧
      (∀ e ∈ out.tree.values, e.2.token.terminalKind? = some e.1 ∧
        (out.table.handleOf? e.2).map out.table.lookup = some e.2.text) ∧
      ((∀ d ∈ out.reports, d.code ≠ .unexpectedSymbol) →
        out.tree.values.map Prod.snd =
          (notBehindEnd false (tokenize o.lexical text).semantic).filter (·.token.hasLexeme)) := by
  obtain ⟨hsub, hall⟩ := gathered_values_of_parse h
  have hseen : ∀ s ∈ (tokenize o.lexical text).semantic, s.token.isTrivia = false :=
    fun s => isTrivia_eq_false_of_mem_semantic
  refine ⟨?_, fun e he => ?_, fun hclean => ?_⟩
  · rw [← map_snd_entries hseen]
    exact hsub.map Prod.snd
  · obtain ⟨hmem, hkind⟩ := eq_terminalKind?_of_mem_entries (hsub.subset he)
    refine ⟨hkind, ?_⟩
    rw [table_of_parse h]
    refine lookup_handleOf? (List.mem_filter.1 hmem).1 ?_
    rw [Token.hasLexeme_eq_isSome_terminalKind? (hseen _ hmem), hkind]
    rfl
  · rw [hall hclean, map_snd_entries]
    exact fun s hs => hseen s ((sublist_notBehindEnd _ _).subset hs)

/-- A program without faults: all names and numbers in it are values, but the last name. -/
theorem values_of_assignment :
    ∃ out, parse {} .any "MODULE m; BEGIN x := 1 END m." = .ok out ∧ out.reports = [] ∧
      out.tree.values.map Prod.snd =
        (notBehindEnd false (tokenize {} "MODULE m; BEGIN x := 1 END m.").semantic).filter
          (·.token.hasLexeme) := by
  have hok : (parse {} .any "MODULE m; BEGIN x := 1 END m.").toOption.any (·.reports.isEmpty) =
      true := by decide +kernel
  cases hp : parse {} .any "MODULE m; BEGIN x := 1 END m." with
  | error e => rw [hp] at hok; cases hok
  | ok out =>
    have hclean : out.reports = [] := by
      rw [hp] at hok
      exact List.isEmpty_iff.1 hok
    exact ⟨out, rfl, hclean, (values_of_parse hp).2.2 (by simp [hclean])⟩

end

end Modula
