import Modula.Proofs.GathersRules
import Modula.Proofs.RecordGrammars
import Modula.Proofs.YieldsRules

/-!
# The grammars for records agree on their common language

The grammar for records is looked at in two places: by a list of fields, for what a field may start
with, and by the body of a record. Expressions and statements hold no types, so they are read alike
whatever it says. For the rules above types the agreement goes from rule to rule, down from the
unit, and up again through the levels of nesting.
-/

namespace Modula

open Modula.Parser Recastable

/-- What a rule relies on when it calls a nested construct. A list of variants is common to no two
grammars, so of that nothing more is needed. -/
structure Agreeing (r : RecordGrammar) (call call' : Call) : Prop where
  expression : Agrees r True (call .expression) (call' .expression)
  statement : Agrees r True (call .statement) (call' .statement)
  type : Agrees r True (call .type) (call' .type)
  procedure : Agrees r True (call .procedure) (call' .procedure)
  variantFields : r = .variant → ∀ m', Agrees r False (call .variantFields) m'
  shaping : Shaping false call

namespace Grammar

variable {r : RecordGrammar} {o : ParseOptions}

/-! ## Rules that do not look at the grammar for records -/

/-- The nested constructs of an expression or a statement. -/
def innerCalls (expression statement : Parser Node) : Call
  | .statement => statement
  | _ => expression

/-- An expression calls expressions only. -/
theorem expression_eq (call : Call) :
    expression call = expression (innerCalls (call .expression) (call .statement)) := rfl

/-- A statement calls expressions and statements only, and looks at no grammar for records. -/
theorem statement_eq (o : ParseOptions) (r : RecordGrammar) (call : Call) :
    statement (o.withRecords r) call =
      statement o (innerCalls (call .expression) (call .statement)) := rfl

/-- So both are read alike in the two grammars. -/
theorem nested_withRecords (o : ParseOptions) (r r' : RecordGrammar) (levels : Nat) :
    nested (o.withRecords r) levels .expression = nested (o.withRecords r') levels .expression ∧
      nested (o.withRecords r) levels .statement = nested (o.withRecords r') levels .statement := by
  induction levels with
  | zero => exact ⟨rfl, rfl⟩
  | succ levels ih =>
    constructor
    · change expression _ = expression _
      rw [expression_eq, ih.1, ih.2, ← expression_eq]
    · change statement _ _ = statement _ _
      rw [statement_eq, ih.1, ih.2, ← statement_eq]

theorem semicolonList_withRecords (o : ParseOptions) (r : RecordGrammar) :
    semicolonList (o.withRecords r) = semicolonList o := rfl

theorem procedureHeader_withRecords (o : ParseOptions) (r : RecordGrammar) :
    procedureHeader (o.withRecords r) = procedureHeader o := rfl

/-! ## Names and sequences -/

theorem agrees_ident (s : TokenSet) : Agrees r True (ident s) (ident s) :=
  .of_fits (n := 0) inferInstance (yields_ident s) (by decide)

theorem agrees_identList (s : TokenSet) : Agrees r True (identList s) (identList s) :=
  .of_fits (n := 0) inferInstance (yields_identList s) (by decide)

theorem agrees_qualident (s : TokenSet) : Agrees r True (qualident s) (qualident s) :=
  .of_fits (n := 0) inferInstance (yields_qualident s) (by decide)

theorem agrees_missingItems {c : Code} (hc : c = .emptyStatements ∨ c = .emptyFields) :
    Agrees r True (missingItems c) (missingItems c) := by
  have hgap : c.leavesGap = true := by rcases hc with rfl | rfl <;> rfl
  exact .of_fits (n := 0) (s := ⟨[], false⟩) (composed_missingItems hc)
    (yields_missingItems hgap rfl) (by decide)

theorem agrees_empty :
    Agrees r True (return Tree.empty : Parser Node) (return Tree.empty : Parser Node) :=
  .branch rfl (fun _ => trivial) rfl

theorem agrees_optionalAt {w : Token} {rule rule' : Parser Node} (h : Agrees r True rule rule') :
    Agrees r True (optionalAt w rule) (optionalAt w rule') :=
  .ifAt (.skip fun _ => h) agrees_empty

/-- A list of parts that differs in its parts only. -/
theorem recast_listNode {k : Kind} (hk : k.isRecordSort = false) (parts : List Node) :
    (listNode k parts).recast r = listNode k (recast r parts) := by
  cases parts with
  | nil => exact Tree.recast_branch rfl []
  | cons t ts => exact Tree.recast_branch hk (t :: ts)

theorem isCommon_of_listNode {k : Kind} {parts : List Node}
    (h : (listNode k parts).isCommon r = true) : IsCommon r parts := by
  cases parts with
  | nil => nofun
  | cons t ts => exact (Tree.isCommon_branch.1 h).2

/-- What a list ends in front of: where the second grammar would see another item, the first one
would as well. -/
def EndsBoth (start start' : TokenSet) (q : Progress) : Prop :=
  start'.contains q.lookahead.token = true → start.contains q.lookahead.token = true

/-- A round adds its item unless that is a gap, in both grammars. -/
theorem agrees_semicolonRound {kinds : List Kind} (o : ParseOptions)
    (start start' closers : TokenSet) {item item' : Parser Node} (hi : Agrees r True item item')
    (hfits : Yields false (Fits false (.of kinds)) item) (found : List Node) :
    AgreesWhen r (AgreesWhen.AtLast fun _ => EndsBoth start start') (IsCommon r found)
      (semicolonRound o start closers item found)
      (semicolonRound o start' closers item' (recast r found)) := by
  unfold semicolonRound
  refine hi.bind_knowing (fun p t q h => (hfits p t q h).2 nofun) fun node hnode => ?_
  rw [recast_node, Tree.isEmpty_recast]
  have hadded : recast r (if node.isEmpty then found else node :: found) =
      if node.isEmpty then recast r found else node.recast r :: recast r found := by
    split <;> rfl
  rw [← hadded]
  have howed : IsCommon r (if node.isEmpty then found else node :: found) →
      IsCommon r found ∧ IsCommon r node := by
    split
    · next he =>
      -- the placeholder itself, since nothing stands below it
      have hfree : node.kind.isRecordFree = true := by
        rw [eq_of_beq he]
        rfl
      exact fun h => ⟨h, (Tree.IsSame.of_wellShaped hnode.2 hfree).1⟩
    · intro h
      obtain ⟨ht, hts⟩ := List.forall_mem_cons.1 h
      exact ⟨hts, ht⟩
  refine .ifAt (.skip fun semicolon => .ifAtAny (.skip fun _ => ?_) ?_) ?_
  · exact .pure fun h => ⟨howed h, rfl⟩
  · exact .pure fun h => ⟨howed h, rfl⟩
  · intro p x q hm
    rw [exec_ifAtAny] at hm
    split at hm
    · exact AgreesWhen.unexpected (fun _ => inferInstance) p x q hm
    · next hstart =>
      cases hm
      refine ⟨Nat.le_refl _, fun _ hcommon hends => ⟨howed hcommon, ?_⟩⟩
      rw [exec_ifAtAny, if_neg fun h => hstart (hends h)]
      rfl

theorem agrees_semicolonList {kinds : List Kind} (o : ParseOptions)
    (start start' closers : TokenSet) {item item' : Parser Node} (hi : Agrees r True item item')
    (hfits : Yields false (Fits false (.of kinds)) item) :
    AgreesWhen r (fun _ => EndsBoth start start') True (semicolonList o start closers item)
      (semicolonList o start' closers item') := by
  have hloop := AgreesWhen.loop (E := fun _ => EndsBoth start start')
    (agrees_semicolonRound o start start' closers hi hfits) []
  exact .map_reverse (hloop.imp (fun _ => trivial) fun _ _ => id)

/-! ## Types -/

section

variable {call call' : Call}

theorem agrees_aliasType : Agrees r True aliasType aliasType := by
  refine .skip fun _ => .skip fun _ => (agrees_qualident _).bind fun base => ?_
  exact .branch rfl (by simp) rfl

theorem agrees_enumType : Agrees r True enumType enumType :=
  .of_fits (n := 0) inferInstance yields_enumType (by decide)

theorem agrees_setType : Agrees r True setType setType := by
  have hbase : Agrees r True (ifAt .lParen enumType (qualident typeFollow))
      (ifAt .lParen enumType (qualident typeFollow)) := .ifAt agrees_enumType (agrees_qualident _)
  exact .skip fun _ => .skip fun _ => hbase.bind fun base => .branch rfl (by simp) rfl

theorem agrees_procedureType : Agrees r True procedureType procedureType := by
  have hparameters : Agrees r True formalTypeList formalTypeList :=
    .of_fits (n := 0) inferInstance yields_formalTypeList (by decide)
  refine .skip fun _ => (agrees_optionalAt hparameters).bind fun parameters => ?_
  refine (agrees_optionalAt (agrees_qualident _)).bind fun result => ?_
  exact .branch rfl (by simp) rfl

theorem agrees_expressionList (h : Agreeing r call call') :
    Agrees r True (expressionList call) (expressionList call') := by
  unfold expressionList
  rw [← bind_pure_comp, ← bind_pure_comp]
  refine (AgreesWhen.separated h.expression).map fun parts hparts => ?_
  exact ⟨(Tree.isCommon_branch.1 hparts).2, (Tree.recast_branch rfl parts).symm⟩

theorem agrees_subrangeType (h : Agreeing r call call') :
    Agrees r True (subrangeType call) (subrangeType call') := by
  refine .skip fun _ => h.expression.bind fun low => .skip fun _ => ?_
  refine h.expression.bind fun high => .skip fun _ => ?_
  refine (agrees_optionalAt (agrees_qualident _)).bind fun base => ?_
  exact .branch rfl (by simp +contextual) rfl

theorem agrees_arrayType (h : Agreeing r call call') :
    Agrees r True (arrayType call) (arrayType call') := by
  refine .skip fun _ => (agrees_expressionList h).bind fun dimensions => .skip fun _ => ?_
  exact h.type.bind fun element => .branch rfl (by simp) rfl

theorem agrees_pointerType (h : Agreeing r call call') :
    Agrees r True (pointerType call) (pointerType call') :=
  .skip fun _ => .skip fun _ => h.type.bind fun target => .branch rfl (by simp) rfl

theorem agrees_fields (h : Agreeing r call call') :
    Agrees r True (fields call) (fields call') := by
  refine (agrees_identList _).bind fun names => .skip fun _ => ?_
  exact h.type.bind fun type => .branch rfl (by simp) rfl

/-- The variant grammar alone lets a field start with `CASE`. -/
theorem eq_variant_of_mem (h : .kwCase ∈ fieldListStartOf r) : r = .variant := by
  cases r with
  | variant => rfl
  | extensible => exact absurd h (by decide)

theorem agrees_fieldList (h : Agreeing r call call') :
    Agrees r True (fieldList (o.withRecords r) call) (fieldList (o.withRecords r.other) call') := by
  refine .choose fun t => ?_
  dsimp only
  by_cases hident : identStart.contains t = true
  · rw [if_pos hident, if_pos hident]
    exact .inl (agrees_fields h)
  rw [if_neg hident]
  by_cases hcase : t = .kwCase ∧ (fieldListStartOf (o.withRecords r).records).contains t = true
  · rw [if_pos hcase]
    obtain ⟨rfl, hmem⟩ := hcase
    exact .inl ((h.variantFields (eq_variant_of_mem hmem) _).imp False.elim fun _ _ => id)
  · rw [if_neg hcase]
    refine .inr ⟨_, _, fun _ => return .empty, fun hmem => ?_, rfl, fun _ => inferInstance⟩
    rcases fieldListStartOf_cases hmem with ht | ht
    · exact hident ht
    · exact hcase ⟨ht, hmem⟩

/-- Behind the fields nothing comes with which another field would start in the other grammar. -/
theorem agrees_fieldListSequence (h : Agreeing r call call') :
    AgreesWhen r (fun _ => EndsBoth (fieldListStartOf r) (fieldListStartOf r.other)) True
      (fieldListSequence (o.withRecords r) call)
      (fieldListSequence (o.withRecords r.other) call') := by
  refine .ifAtAny ((agrees_missingItems (.inr rfl)).imp id fun _ _ _ => trivial) ?_
  rw [semicolonList_withRecords, semicolonList_withRecords]
  refine (agrees_semicolonList o _ _ fieldsEnd (agrees_fieldList h)
    (yields_fieldList h.shaping)).map ?_
  exact fun lists hlists => ⟨isCommon_of_listNode hlists, (recast_listNode rfl lists).symm⟩

/-! ### Records -/

theorem isEmpty_of_qualident {s : TokenSet} {t : Node} {p q : Progress}
    (h : (qualident s).exec p = (.ok t, q)) (hq : q.surprises = p.surprises) :
    t.isEmpty = false := by
  obtain ⟨first, x, hfirst, h⟩ := exec_bind_eq_ok.1 h
  have hpx : p.surprises ≤ x.surprises :=
    (Composed.steps (n := 0) inferInstance hfirst).recorded_le
  have hxq : x.surprises ≤ q.surprises := (Composed.steps (n := 0) inferInstance h).recorded_le
  obtain ⟨i, rfl⟩ := exists_leaf_of_ident hfirst (by omega)
  rw [if_neg (show ¬(Tree.leaf Kind.ident i).isEmpty = true from nofun), exec_ifAt] at h
  split at h
  · obtain ⟨parts, y, -, h⟩ := exec_bind_eq_ok.1 h
    cases h
    rfl
  · cases h
    rfl

/-- Fields do not start with a parenthesis. -/
theorem lt_surprises_of_fieldListSequence {n : Nat} [Reliable n call] {t : Node} {p q : Progress}
    (h : (fieldListSequence o call).exec p = (.ok t, q)) (hp : p.lookahead.token = .lParen) :
    p.surprises < q.surprises := by
  have hnone : .lParen ∉ fieldListStartOf o.records := by
    cases o.records <;> decide
  unfold fieldListSequence at h
  rw [exec_ifAtAny, hp, if_neg (by decide)] at h
  obtain ⟨lists, x, hlists, h⟩ := exec_bind_eq_ok.1 h
  cases h
  rw [semicolonList, ← bind_pure_comp] at hlists
  obtain ⟨lists, x, hloop, h⟩ := exec_bind_eq_ok.1 hlists
  cases h
  obtain ⟨c, x, hround, hx⟩ := exec_loop_eq_ok (n := n) (fun _ => inferInstance) hloop
  obtain ⟨node, y, hnode, hround⟩ := exec_bind_eq_ok.1 hround
  have hyx : y.surprises ≤ x.surprises :=
    (Composed.steps (n := 0) inferInstance hround).recorded_le
  have hxq : x.surprises ≤ q.surprises := hx.recorded_le
  have hpy : p.surprises < y.surprises := by
    rw [fieldList, exec_bind, exec_token, proceed_ok, hp, if_neg (by decide),
      if_neg (by simp)] at hnode
    obtain ⟨u, z, hu, hnode⟩ := exec_bind_eq_ok.1 hnode
    cases hnode
    have hle : p.surprises ≤ y.surprises :=
      (Composed.steps (n := 0) inferInstance hu).recorded_le
    refine Nat.lt_of_le_of_ne hle fun heq => ?_
    have hmem := mem_of_expectAny hu heq.symm
    rw [hp] at hmem
    exact hnone hmem
  omega

theorem recordBase_of_ne {p : Progress} (hp : p.lookahead.token ≠ .lParen) :
    recordBase.exec p = (.ok .empty, p) := by
  rw [recordBase, exec_ifAt, if_neg hp]
  rfl

/-- A record that is common to the grammars has no base, and so the body of a record of either
grammar is read without one. -/
theorem eq_empty_of_recordBase {p q : Progress} {base : Node}
    (h : recordBase.exec p = (.ok base, q)) (hq : q.surprises = p.surprises)
    (hbase : base.isEmpty = true) : p.lookahead.token ≠ .lParen ∧ base = .empty ∧ q = p := by
  have hp : p.lookahead.token ≠ .lParen := by
    intro hp
    rw [recordBase, exec_ifAt, if_pos hp] at h
    obtain ⟨u, x, hu, h⟩ := exec_bind_eq_ok.1 h
    obtain ⟨t, y, ht, h⟩ := exec_bind_eq_ok.1 h
    obtain ⟨v, z, hv, h⟩ := exec_bind_eq_ok.1 h
    cases h
    have hpx : p.surprises ≤ x.surprises := (Composed.steps (n := 0) inferInstance hu).recorded_le
    have hxy : x.surprises ≤ y.surprises := (Composed.steps (n := 0) inferInstance ht).recorded_le
    have hyq : y.surprises ≤ q.surprises := (Composed.steps (n := 0) inferInstance hv).recorded_le
    rw [isEmpty_of_qualident ht (by omega)] at hbase
    cases hbase
  rw [recordBase_of_ne hp] at h
  cases h
  exact ⟨hp, rfl, rfl⟩

theorem agrees_recordBody {n : Nat} [Reliable n call] (h : Agreeing r call call') :
    AgreesWhen r (fun _ => EndsBoth (fieldListStartOf r) (fieldListStartOf r.other)) True
      (recordBody (o.withRecords r) call) (recordBody (o.withRecords r.other) call') := by
  have hsequence := agrees_fieldListSequence (o := o) h
  intro p t q hm
  cases r with
  | variant =>
    obtain ⟨fields, x, hfields, hm⟩ := exec_bind_eq_ok.1 hm
    cases hm
    obtain ⟨hle, hagree⟩ := hsequence p fields q hfields
    refine ⟨hle, fun hq hcommon hends => ⟨trivial, ?_⟩⟩
    have hp : p.lookahead.token ≠ .lParen := by
      intro hp
      have hlt := lt_surprises_of_fieldListSequence (n := n) hfields hp
      omega
    have hcommon := (Tree.isCommon_branch.1 hcommon).2 fields List.mem_cons_self
    obtain ⟨-, hfields'⟩ := hagree hq hcommon hends
    exact exec_bind_eq_ok.2 ⟨_, _, recordBase_of_ne hp, exec_bind_eq_ok.2 ⟨_, _, hfields', rfl⟩⟩
  | extensible =>
    obtain ⟨base, x, hbase, hm⟩ := exec_bind_eq_ok.1 hm
    obtain ⟨fields, y, hfields, hm⟩ := exec_bind_eq_ok.1 hm
    cases hm
    obtain ⟨hle, hagree⟩ := hsequence x fields q hfields
    have hpx : p.surprises ≤ x.surprises :=
      (Composed.steps (n := 0) inferInstance hbase).recorded_le
    refine ⟨Nat.le_trans hpx hle, fun hq hcommon hends => ⟨trivial, ?_⟩⟩
    obtain ⟨hshares, hparts⟩ := Tree.isCommon_branch.1 hcommon
    obtain ⟨-, rfl, rfl⟩ := eq_empty_of_recordBase hbase (by omega) hshares
    have hcommon := hparts fields (List.mem_cons_of_mem _ List.mem_cons_self)
    obtain ⟨-, hfields'⟩ := hagree hq hcommon hends
    exact exec_bind_eq_ok.2 ⟨_, _, hfields', rfl⟩

theorem agrees_recordType {n : Nat} [Reliable n call] (h : Agreeing r call call') :
    Agrees r True (recordType (o.withRecords r) call)
      (recordType (o.withRecords r.other) call') := by
  refine .skip fun _ => .bind_expect .kwEnd typeFollow (agrees_recordBody (n := n) h) ?_
  intro q hq hmem
  rw [hq] at hmem
  cases r <;> exact absurd hmem (by decide)

theorem agrees_typeDenoter {n : Nat} [Reliable n call] (h : Agreeing r call call') :
    Agrees r True (typeDenoter (o.withRecords r) call)
      (typeDenoter (o.withRecords r.other) call') := by
  unfold typeDenoter
  refine .skip fun t => ?_
  split
  · exact agrees_aliasType
  · exact agrees_subrangeType h
  · exact agrees_enumType
  · exact agrees_setType
  · exact agrees_arrayType h
  · exact agrees_recordType (n := n) h
  · exact agrees_pointerType h
  · exact agrees_procedureType
  · split
    · exact agrees_qualident _
    · exact .skip fun _ => agrees_empty

/-- A list of variants is not common to the grammars. -/
theorem agrees_variantFieldList {n : Nat} [Reliable n call] (m' : Parser Node) :
    Agrees .variant False (variantFieldList o call) m' := by
  intro p t q hm
  refine ⟨((composed_variantFieldList n o call).1.steps hm).recorded_le, fun _ hcommon => ?_⟩
  simp only [variantFieldList, exec_bind_eq_ok] at hm
  obtain ⟨_, _, -, _, _, -, _, _, -, _, _, -, _, _, -, _, _, -, _, _, -, _, _, -, _, _, -, h⟩ := hm
  cases h
  cases (Tree.isCommon_branch.1 hcommon).1

end

/-! ## Statements and declarations -/

section

variable {call call' : Call}

theorem agrees_statementSequence (h : Agreeing r call call') :
    Agrees r True (statementSequence (o.withRecords r) call)
      (statementSequence (o.withRecords r.other) call') := by
  refine .ifAtAny (agrees_missingItems (.inl rfl)) ?_
  rw [semicolonList_withRecords, semicolonList_withRecords]
  have hlist := agrees_semicolonList o statementStart statementStart statementsEnd h.statement
    (h.shaping .statement)
  refine AgreesWhen.map (F := fun _ => True) (hlist.imp id fun _ _ _ => id) fun ss hss => ?_
  exact ⟨isCommon_of_listNode hss, (recast_listNode rfl ss).symm⟩

theorem agrees_constantDefinition (h : Agreeing r call call') :
    Agrees r True (constantDefinition call) (constantDefinition call') := by
  refine (agrees_ident _).bind fun name => .skip fun _ => ?_
  exact h.expression.bind fun value => .skip fun _ => .branch rfl (by simp) rfl

theorem agrees_typeDefinition (h : Agreeing r call call') (part : Part) :
    Agrees r True (typeDefinition call part) (typeDefinition call' part) := by
  have hopaque : Yields false (Tree.IsSame r) (opaqueType part) := by
    intro p t q hm
    have hsteps := Composed.steps (n := 0) inferInstance hm
    refine ⟨hsteps.gaps_le, fun _ => ?_⟩
    cases part <;> cases hm <;> exact Tree.IsSame.branch rfl nofun
  have hdenoter : Agrees r True (ifAt .kwOpaque (opaqueType part) (call .type))
      (ifAt .kwOpaque (opaqueType part) (call' .type)) :=
    .ifAt (.same (n := 0) inferInstance hopaque) h.type
  refine (agrees_ident _).bind fun name => .skip fun _ => ?_
  exact hdenoter.bind fun denoter => .skip fun _ => .branch rfl (by simp) rfl

theorem agrees_variableDeclaration (h : Agreeing r call call') :
    Agrees r True (variableDeclaration call) (variableDeclaration call') := by
  refine (agrees_identList _).bind fun names => .skip fun _ => ?_
  exact h.type.bind fun type => .skip fun _ => .branch rfl (by simp) rfl

theorem agrees_declarationSection {item item' : Parser Node} (hi : Agrees r True item item') :
    Agrees r True (declarationSection item) (declarationSection item') := by
  refine .skip fun _ => .whileAtAny ?_
  exact hi.bind fun node => .skip fun _ => .pure fun hnode => ⟨⟨trivial, hnode⟩, rfl⟩

theorem agrees_procedureIn (h : Agreeing r call call') (part : Part) :
    Agrees r True (procedureIn (o.withRecords r) call part)
      (procedureIn (o.withRecords r.other) call' part) := by
  cases part with
  | definitions =>
    change Agrees r True (procedureDefinition o) (procedureDefinition o)
    exact .of_fits (n := 0) inferInstance (yields_procedureDefinition o) (by decide)
  | declarations => exact h.procedure

theorem agrees_declarationRound (h : Agreeing r call call') (part : Part)
    (found : List (List Node)) :
    AgreesWhen r (AgreesWhen.AtLast fun _ _ => True) (IsCommon r found)
      (declarationRound (o.withRecords r) call part found)
      (declarationRound (o.withRecords r.other) call' part (recast r found)) := by
  have hround {item item' : Parser Node} (hi : Agrees r True item item') :
      AgreesWhen r (AgreesWhen.AtLast fun _ _ => True) (IsCommon r found)
        (do return Round.more ((← declarationSection item) :: found))
        (do return Round.more ((← declarationSection item') :: recast r found)) :=
    (agrees_declarationSection hi).bind fun ds => .pure fun hall => by
      obtain ⟨hds, hfound⟩ := List.forall_mem_cons.1 hall
      exact ⟨⟨hfound, hds⟩, rfl⟩
  unfold declarationRound
  refine .skip fun t => ?_
  split
  · exact hround (agrees_constantDefinition h)
  · exact hround (agrees_typeDefinition h part)
  · exact hround (agrees_variableDeclaration h)
  · refine (agrees_procedureIn h part).bind fun d => .pure fun hall => ?_
    obtain ⟨hd, hfound⟩ := List.forall_mem_cons.1 hall
    exact ⟨⟨hfound, hd d List.mem_cons_self⟩, rfl⟩
  · refine .ifAtAny (.pure fun hfound => ⟨hfound, rfl⟩) ?_
    exact .skip fun _ => .pure fun hfound => ⟨hfound, rfl⟩

theorem agrees_declarationList (h : Agreeing r call call') (part : Part) :
    Agrees r True (declarationList (o.withRecords r) call part)
      (declarationList (o.withRecords r.other) call' part) := by
  have hloop := AgreesWhen.loop (agrees_declarationRound (o := o) h part) []
  refine (hloop.imp (fun _ => trivial) fun _ _ => id).map fun sections hall => ?_
  have hkind : part.kind.isRecordSort = false := by cases part <;> rfl
  have hsections := isCommon_of_listNode hall
  refine ⟨fun ds hds d hd => hsections d ?_, ?_⟩
  · exact List.mem_flatten.2 ⟨ds, List.mem_reverse.2 hds, hd⟩
  · have hflatten : recast r sections.reverse.flatten =
        (recast r sections : List (List Node)).reverse.flatten := by
      change (sections.reverse.flatten).map (Tree.recast r) =
        (sections.map (List.map (Tree.recast r))).reverse.flatten
      rw [List.map_flatten, List.map_reverse]
    rw [← hflatten]
    exact (recast_listNode hkind _).symm

theorem agrees_block (h : Agreeing r call call') :
    Agrees r True (block (o.withRecords r) call) (block (o.withRecords r.other) call') := by
  refine (agrees_declarationList h .declarations).bind fun declarations => ?_
  refine (agrees_optionalAt (agrees_statementSequence h)).bind fun body => ?_
  exact .skip fun _ => .branch rfl (by simp) rfl

theorem agrees_procedureDeclaration (h : Agreeing r call call') :
    Agrees r True (procedureDeclaration (o.withRecords r) call)
      (procedureDeclaration (o.withRecords r.other) call') := by
  unfold procedureDeclaration
  rw [procedureHeader_withRecords, procedureHeader_withRecords]
  refine .bind_of_yields (n := 0) inferInstance (yields_procedureHeader o) fun header hh => ?_
  have hname : header.name.IsSame r := .of_fits (by decide) hh.1
  have hparameters : header.parameters.IsSame r := .of_fits (by decide) hh.2.1
  have hresult : header.result.IsSame r := .of_fits (by decide) hh.2.2
  refine .skip fun _ => (agrees_block h).bind fun body => .skip fun _ => .skip fun _ => ?_
  refine .skip fun _ => .branch rfl (by simp) ?_
  simp only [List.map_cons, List.map_nil, hname.2, hparameters.2, hresult.2]
  rfl

end

/-! ## Nested constructs and compilation units -/

/-- Expressions and statements are read alike, and there is no record in them. -/
theorem agrees_nested_inner (o : ParseOptions) (levels : Nat) :
    Agrees r True (nested (o.withRecords r) levels .expression)
        (nested (o.withRecords r.other) levels .expression) ∧
      Agrees r True (nested (o.withRecords r) levels .statement)
        (nested (o.withRecords r.other) levels .statement) := by
  have hcomposed := (reliable_nested (o.withRecords r) levels).composed
  have hshaping := shaping_nested (g := false) (o.withRecords r) levels
  obtain ⟨hexpression, hstatement⟩ := nested_withRecords o r r.other levels
  rw [← hexpression, ← hstatement]
  exact ⟨.of_fits (hcomposed .expression) (hshaping .expression) (by decide),
    .of_fits (hcomposed .statement) (hshaping .statement) (by decide)⟩

/-- The nested constructs of the grammars agree, however many levels are left. -/
theorem agreeing_nested (o : ParseOptions) (levels : Nat) :
    Agreeing r (nested (o.withRecords r) levels) (nested (o.withRecords r.other) levels) := by
  induction levels with
  | zero =>
    have hnone (x : Nested) (owed : Prop) (m' : Parser Node) :
        Agrees r owed (nested (o.withRecords r) 0 x) m' := by
      intro p t q hm
      cases hm
    exact ⟨hnone _ _ _, hnone _ _ _, hnone _ _ _, hnone _ _ _, fun _ => hnone _ _,
      shaping_nested _ 0⟩
  | succ levels ih =>
    obtain ⟨hexpression, hstatement⟩ := agrees_nested_inner (r := r) o (levels + 1)
    have : Reliable o.maxNesting (nested (o.withRecords r) levels) :=
      reliable_nested (o.withRecords r) levels
    refine ⟨hexpression, hstatement, ?_, agrees_procedureDeclaration ih, ?_,
      shaping_nested _ (levels + 1)⟩
    · exact agrees_typeDenoter (n := o.maxNesting) ih
    · rintro rfl m'
      exact agrees_variantFieldList (n := o.maxNesting) m'

theorem agrees_importList : Agrees r True importList importList :=
  .of_fits (n := 0) inferInstance yields_importList (by decide)

theorem agrees_definitionModule (o : ParseOptions) :
    Agrees r True (definitionModule (o.withRecords r))
      (definitionModule (o.withRecords r.other)) := by
  refine .skip fun _ => .bind_of_yields (n := 0) inferInstance yields_moduleHeader ?_
  intro name hname
  have hname : name.IsSame r := .of_fits (by decide) hname
  refine agrees_importList.bind fun imports => ?_
  refine (agrees_declarationList (agreeing_nested o o.maxNesting) .definitions).bind fun ds => ?_
  refine .skip fun _ => .skip fun _ => .branch rfl (by simp) ?_
  simp only [List.map_cons, List.map_nil, hname.2]
  rfl

theorem agrees_programModule (o : ParseOptions) {kind : Kind} (hk : kind.isRecordSort = false) :
    Agrees r True (programModule (o.withRecords r) kind)
      (programModule (o.withRecords r.other) kind) := by
  refine .bind_of_yields (n := 0) inferInstance yields_moduleHeader fun name hname => ?_
  have hname : name.IsSame r := .of_fits (by decide) hname
  refine agrees_importList.bind fun imports => ?_
  refine (agrees_block (agreeing_nested o o.maxNesting)).bind fun body => ?_
  refine .skip fun _ => .branch hk (by simp) ?_
  simp only [List.map_cons, List.map_nil, hname.2]
  rfl

theorem agrees_compilationUnit (o : ParseOptions) (kind : UnitKind) :
    Agrees r True (compilationUnit (o.withRecords r) kind)
      (compilationUnit (o.withRecords r.other) kind) := by
  unfold compilationUnit
  refine .skip fun first => ?_
  split
  · split
    · exact agrees_definitionModule o
    · exact .skip fun _ => agrees_programModule o rfl
    · exact agrees_programModule o rfl
  · intro p t q hm
    cases hm

end Grammar

/-! ## Two parses with different grammars for records -/

/-- The grammars for records agree on their common language. Where a parse meets no symbol that is
unexpected, and its tree has no node that only its own grammar for records has, a parse with the
other grammar reports, counts and puts aside the same, and comes to the same tree but for the nodes
of record types. -/
theorem parse_withRecords (o : ParseOptions) (r : RecordGrammar) (kind : UnitKind) (text : String)
    (out : ParseOutput) (h : parse (o.withRecords r) kind text = .ok out)
    (hexpected : ∀ d ∈ out.reports, d.code ≠ .unexpectedSymbol)
    (hcommon : out.tree.isCommon r = true) :
    parse (o.withRecords r.other) kind text = .ok { out with tree := out.tree.recast r } := by
  have houtcome (r : RecordGrammar) : parse (o.withRecords r) kind text =
      outcomeOf o.lexical text ((Grammar.compilationUnit (o.withRecords r) kind).exec
        (startOfUnit o.lexical text)) := parse_eq_outcomeOf _ _ _
  rw [houtcome] at h ⊢
  rcases hx : (Grammar.compilationUnit (o.withRecords r) kind).exec
    (startOfUnit o.lexical text) with ⟨f | tree, q⟩
  · rw [hx] at h
    cases h
  · rw [hx] at h
    cases h
    have hzero : q.surprises = 0 := by
      rw [Progress.surprises, Progress.recorded, List.countP_eq_zero]
      exact fun d hd => by simpa using hexpected d hd
    obtain ⟨-, hagree⟩ := Grammar.agrees_compilationUnit o kind _ tree q hx
    obtain ⟨-, hother⟩ := hagree (hzero.trans (surprises_startOfUnit _ _).symm) hcommon trivial
    rw [hother]
    rfl

/-- A program with a record in a field of a record. -/
def recordInRecord : String :=
  "MODULE m; TYPE t = RECORD a, b: c; d: POINTER TO RECORD e: f END END; END m."

theorem exists_parse_recordInRecord (r : RecordGrammar) :
    ∃ out, parse (({} : ParseOptions).withRecords r) .any recordInRecord = .ok out ∧
      out.reports = [] ∧ out.tree.isCommon r = true := by
  have hok : (parse (({} : ParseOptions).withRecords r) .any recordInRecord).toOption.any
      (fun out => out.reports.isEmpty && out.tree.isCommon r) = true := by
    cases r <;> decide +kernel
  cases hp : parse (({} : ParseOptions).withRecords r) .any recordInRecord with
  | error e =>
    rw [hp] at hok
    cases hok
  | ok out =>
    rw [hp] at hok
    obtain ⟨hreports, hcommon⟩ := Bool.and_eq_true_iff.1 hok
    exact ⟨out, rfl, List.isEmpty_iff.1 hreports, hcommon⟩

/-- The program is read alike with either grammar. -/
theorem parse_withRecords_recordInRecord :
    (∃ out, parse (({} : ParseOptions).withRecords .variant) .any recordInRecord = .ok out ∧
      out.reports = [] ∧ out.tree.isCommon .variant = true ∧
      parse (({} : ParseOptions).withRecords .extensible) .any recordInRecord =
        .ok { out with tree := out.tree.recast .variant }) ∧
    ∃ out, parse (({} : ParseOptions).withRecords .extensible) .any recordInRecord = .ok out ∧
      out.reports = [] ∧ out.tree.isCommon .extensible = true ∧
      parse (({} : ParseOptions).withRecords .variant) .any recordInRecord =
        .ok { out with tree := out.tree.recast .extensible } := by
  obtain ⟨out, hp, hreports, hcommon⟩ := exists_parse_recordInRecord .variant
  obtain ⟨out', hp', hreports', hcommon'⟩ := exists_parse_recordInRecord .extensible
  constructor
  · refine ⟨out, hp, hreports, hcommon, ?_⟩
    exact parse_withRecords {} .variant _ _ out hp (by simp [hreports]) hcommon
  · refine ⟨out', hp', hreports', hcommon', ?_⟩
    exact parse_withRecords {} .extensible _ _ out' hp' (by simp [hreports']) hcommon'

end Modula
