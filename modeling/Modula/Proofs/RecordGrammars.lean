import Modula.Proofs.ComposedRules
import Modula.Proofs.Gathers

/-!
# Two grammars for records

Records may have variants, or they may extend another record. A tree without either is common to
the two grammars, but for the node of a record type: `RECORD` with its fields in the one, `EXTREC`
with an absent base and its fields in the other.

Rules of the two grammars agree if a run of the one in which nothing was unexpected, with an answer
that is common to both, is a run of the other that answers the same for its own records. Since only
the tree at the end is known to be common, a rule also owes that what was read before it is common
if its own answer is.
-/

namespace Modula

open Modula.Parser

/-- The grammar of the other one of the two forms. -/
def RecordGrammar.other : RecordGrammar → RecordGrammar
  | variant => extensible
  | extensible => variant

/-- The options with a grammar for records. -/
def ParseOptions.withRecords (o : ParseOptions) (r : RecordGrammar) : ParseOptions :=
  { o with records := r }

/-! ## Trees of the two grammars -/

/-- The node stands for a record type, or is a list of variants. -/
def Kind.isRecordSort : Kind → Bool
  | recordType | extensibleRecordType | variantFieldList => true
  | _ => false

namespace RecordGrammar

variable {α : Type}

/-- A node of the grammar as the other grammar has it. The base of a record, which is absent where
the other grammar has the node, is left out or put in. -/
def recastNode (r : RecordGrammar) (k : Kind) (v : Option α) (cs : List (Tree α)) : Tree α :=
  match k, r, cs with
  | .recordType, .variant, [fields] => .node .extensibleRecordType v [.empty, fields]
  | .extensibleRecordType, .extensible, [_, fields] => .node .recordType v [fields]
  | k, _, cs => .node k v cs

/-- The other grammar has such nodes: there is no list of variants, or a record has no base. -/
def shares (r : RecordGrammar) (k : Kind) (cs : List (Tree α)) : Bool :=
  match r with
  | variant => k != .variantFieldList
  | extensible => k != .extensibleRecordType || cs.head?.all Tree.isEmpty

variable {r : RecordGrammar} {k : Kind}

theorem recastNode_of_not_isRecordSort (hk : k.isRecordSort = false) (v : Option α)
    (cs : List (Tree α)) : r.recastNode k v cs = .node k v cs := by
  unfold recastNode
  split
  · cases hk
  · cases hk
  · rfl

theorem shares_of_not_isRecordSort (hk : k.isRecordSort = false) (cs : List (Tree α)) :
    r.shares k cs = true := by
  cases r <;> cases k <;> first | rfl | cases hk

end RecordGrammar

namespace Tree

variable {α : Type}

mutual

/-- A tree of the grammar, with every record as the other grammar has it. -/
def recast (r : RecordGrammar) : Tree α → Tree α
  | node k v cs => r.recastNode k v (recastAll r cs)

/-- The same for a row of trees. -/
def recastAll (r : RecordGrammar) : List (Tree α) → List (Tree α)
  | [] => []
  | t :: ts => t.recast r :: recastAll r ts

end

mutual

/-- The other grammar has all nodes of the tree. -/
def isCommon (r : RecordGrammar) : Tree α → Bool
  | node k _ cs => r.shares k cs && isCommonAll r cs

/-- The same for a row of trees. -/
def isCommonAll (r : RecordGrammar) : List (Tree α) → Bool
  | [] => true
  | t :: ts => t.isCommon r && isCommonAll r ts

end

variable {r : RecordGrammar}

theorem recastAll_eq_map (ts : List (Tree α)) : recastAll r ts = ts.map (recast r) := by
  induction ts with
  | nil => rfl
  | cons t ts ih => rw [recastAll, ih, List.map_cons]

theorem isCommonAll_iff {ts : List (Tree α)} :
    isCommonAll r ts = true ↔ ∀ t ∈ ts, t.isCommon r = true := by
  induction ts with
  | nil => simp [isCommonAll]
  | cons t ts ih => rw [isCommonAll, Bool.and_eq_true, ih, List.forall_mem_cons]

theorem isCommon_branch {k : Kind} {cs : List (Tree α)} :
    (branch k cs).isCommon r = true ↔ r.shares k cs = true ∧ ∀ c ∈ cs, c.isCommon r = true := by
  rw [branch, isCommon, Bool.and_eq_true, isCommonAll_iff]

theorem recast_branch {k : Kind} (hk : k.isRecordSort = false) (cs : List (Tree α)) :
    (branch k cs).recast r = branch k (cs.map (recast r)) := by
  rw [branch, recast, recastAll_eq_map, RecordGrammar.recastNode_of_not_isRecordSort hk]
  rfl

/-- The placeholder stays, and no other tree becomes one. -/
theorem isEmpty_recast (t : Tree α) : (t.recast r).isEmpty = t.isEmpty := by
  cases t with
  | node k v cs =>
    rw [recast]
    unfold RecordGrammar.recastNode
    split <;> rfl

end Tree

/-! ## Trees without records -/

/-- The nodes of the kind are nothing that differs, and in a tree of the right shape nothing below
them is. -/
def Kind.isRecordFree : Kind → Bool
  | .definitionModule | .implementationModule | .programModule | .block | .definitionList
  | .declarationList | .typeDefinition | .variableDeclaration | .procedureDeclaration | .arrayType
  | .recordType | .extensibleRecordType | .pointerType | .fieldListSequence | .fieldList
  | .variantFieldList | .variantList | .variant => false
  | _ => true

theorem Kind.shape_isRecordFree {k : Kind} (hk : k.isRecordFree = true) :
    (shapeOf k).all isRecordFree = true := by
  revert hk
  cases k <;> decide

theorem Kind.isRecordSort_of_isRecordFree {k : Kind} (hk : k.isRecordFree = true) :
    k.isRecordSort = false := by
  cases k <;> first | rfl | cases hk

/-- A tree that is the same in the two grammars. -/
def Tree.IsSame (r : RecordGrammar) (t : Node) : Prop := t.isCommon r = true ∧ t.recast r = t

namespace Tree.IsSame

variable {r : RecordGrammar}

theorem branch {k : Kind} (hk : k.isRecordSort = false) {cs : List Node}
    (h : ∀ c ∈ cs, c.IsSame r) : (Tree.branch k cs).IsSame r := by
  refine ⟨Tree.isCommon_branch.2 ⟨RecordGrammar.shares_of_not_isRecordSort hk cs, ?_⟩, ?_⟩
  · exact fun c hc => (h c hc).1
  · rw [Tree.recast_branch hk, List.map_congr_left fun c hc => (h c hc).2, List.map_id']

theorem leaf {k : Kind} (hk : k.isRecordSort = false) (s : Symbol) :
    (Tree.leaf k s).IsSame r := by
  refine ⟨?_, ?_⟩
  · rw [Tree.leaf, Tree.isCommon, RecordGrammar.shares_of_not_isRecordSort hk]
    rfl
  · rw [Tree.leaf, Tree.recast, RecordGrammar.recastNode_of_not_isRecordSort hk]
    rfl

theorem of_wellShaped {g : Bool} {t : Node} (h : WellShaped g t)
    (ht : t.kind.isRecordFree = true) : t.IsSame r := by
  have hsort := Kind.isRecordSort_of_isRecordFree ht
  have hchildren := h.children (Kind.shape_isRecordFree ht)
  induction h with
  | parts _ _ _ ih | row _ _ _ ih =>
    refine branch hsort fun c hc => ?_
    obtain ⟨hshaped, hfree⟩ := hchildren c hc
    exact ih c hc hfree (Kind.isRecordSort_of_isRecordFree hfree)
      (hshaped.children (Kind.shape_isRecordFree hfree))
  | terminal s => exact leaf hsort s

theorem of_fits {g : Bool} {s : Slot} {t : Node} (hs : s.all Kind.isRecordFree = true)
    (h : Fits g s t) : t.IsSame r := of_wellShaped h.2 (Slot.all_of_admits hs h.1)

end Tree.IsSame

/-! ## Symbols that are not unexpected -/

namespace Parser

variable {α : Type} {p q : Progress}

/-- Where a symbol was unexpected, this is never taken back. -/
theorem lt_surprises_of_unexpected {e : Expected} {k : Unit → Parser α} {a : α}
    (hk : ∀ u, Composed 0 (k u)) (h : (unexpected e >>= k).exec p = (.ok a, q)) :
    p.surprises < q.surprises := by
  rw [exec_bind, exec_unexpected, proceed_ok] at h
  have hle : (p.report (surprise p e)).surprises ≤ q.surprises := ((hk ()).steps h).recorded_le
  have hcode : (surprise p e).code = .unexpectedSymbol := rfl
  rw [Progress.surprises_report, if_pos hcode] at hle
  exact hle

theorem token_eq_of_expect {t : Token} {s : TokenSet} {u : Unit}
    (h : (expect t s).exec p = (.ok u, q)) (hq : q.surprises = p.surprises) :
    p.lookahead.token = t := by
  by_contra ht
  rw [expect_eq, accept, ifAt_bind, exec_ifAt, if_neg ht, bind_assoc] at h
  have hlt := lt_surprises_of_unexpected (fun _ => inferInstance) h
  omega

theorem mem_of_expectAny {s resync : TokenSet} {u : Unit}
    (h : (expectAny s resync).exec p = (.ok u, q)) (hq : q.surprises = p.surprises) :
    p.lookahead.token ∈ s := by
  by_contra hs
  rw [expectAny, exec_ifAtAny, if_neg (show ¬s.contains _ = true from hs)] at h
  have hlt := lt_surprises_of_unexpected (fun _ => inferInstance) h
  omega

theorem exists_leaf_of_ident {s : TokenSet} {t : Node} (h : (ident s).exec p = (.ok t, q))
    (hq : q.surprises = p.surprises) : ∃ x, t = .leaf .ident x := by
  rw [ident, exec_ifAtAny] at h
  split at h
  · cases h
    exact ⟨_, rfl⟩
  · have hlt := lt_surprises_of_unexpected (fun _ => inferInstance) h
    omega

end Parser

/-! ## Rules that agree -/

/-- Answers made of trees. -/
class Recastable (α : Type) where
  /-- The other grammar has such answers. -/
  IsCommon : RecordGrammar → α → Prop
  /-- The answer as the other grammar has it. -/
  recast : RecordGrammar → α → α

namespace Recastable

variable {α : Type} [Recastable α] {r : RecordGrammar}

instance : Recastable Node := ⟨fun r t => t.isCommon r = true, Tree.recast⟩

instance : Recastable (List α) :=
  ⟨fun r as => ∀ a ∈ as, IsCommon r a, fun r as => as.map (recast r)⟩

instance : Recastable (Round α) where
  IsCommon r := Round.Holds (IsCommon r)
  recast r
    | .more a => .more (recast r a)
    | .done a => .done (recast r a)

@[simp]
theorem isCommon_node {t : Node} : IsCommon r t ↔ t.isCommon r = true := Iff.rfl

theorem recast_node {t : Node} : recast r t = t.recast r := rfl

end Recastable

open Recastable

namespace Parser

variable {α β γ : Type} [Recastable α] [Recastable β] {r : RecordGrammar}

/-- Where nothing was unexpected, the first rule's answer is common to the grammars, and more holds
of the answer and the point behind it: the second rule comes to the same point with the answer
recast, and the rule has what it owes. -/
def AgreesWhen (r : RecordGrammar) (E : α → Progress → Prop) (owed : Prop) (m m' : Parser α) :
    Prop :=
  ∀ p a q, m.exec p = (.ok a, q) → p.surprises ≤ q.surprises ∧
    (q.surprises = p.surprises → IsCommon r a → E a q →
      owed ∧ m'.exec p = (.ok (recast r a), q))

/-- Where nothing was unexpected and the first rule's answer is common to the grammars, the second
rule comes to the same point with the answer recast, and the rule has what it owes. -/
abbrev Agrees (r : RecordGrammar) (owed : Prop) (m m' : Parser α) : Prop :=
  AgreesWhen r (fun _ _ => True) owed m m'

namespace AgreesWhen

variable {E : α → Progress → Prop} {owed owed' : Prop}

/-- A rule that stops answers nothing. -/
theorem stop {s : Stop} {m' : Parser α} : AgreesWhen r E owed (throw s) m' := fun _ _ _ => nofun

theorem pure {a a' : α} (h : IsCommon r a → owed ∧ a' = recast r a) :
    AgreesWhen r E owed (pure a) (pure a') := by
  intro p b q hm
  cases hm
  refine ⟨Nat.le_refl _, fun _ ha _ => ?_⟩
  obtain ⟨howed, rfl⟩ := h ha
  exact ⟨howed, rfl⟩

theorem imp {E' : α → Progress → Prop} {m m' : Parser α} (h : AgreesWhen r E owed m m')
    (howed : owed → owed') (hE : ∀ a q, E' a q → E a q) : AgreesWhen r E' owed' m m' := by
  intro p a q hm
  obtain ⟨hle, hagree⟩ := h p a q hm
  refine ⟨hle, fun hq ha ha' => ?_⟩
  obtain ⟨ho, hm'⟩ := hagree hq ha (hE a q ha')
  exact ⟨howed ho, hm'⟩

/-- What comes behind a rule owes its answer. More may be known of the answer, and of the point
behind it. -/
theorem bind_when {F : β → Progress → Prop} {P : β → Prop} {m m' : Parser β} {k k' : β → Parser α}
    (hm : AgreesWhen r F owed m m') (hP : ∀ p b q, m.exec p = (.ok b, q) → P b)
    (hF : ∀ b p a q, (k b).exec p = (.ok a, q) → q.surprises = p.surprises → E a q → F b p)
    (hk : ∀ b, P b → AgreesWhen r E (owed' ∧ IsCommon r b) (k b) (k' (recast r b))) :
    AgreesWhen r E (owed ∧ owed') (m >>= k) (m' >>= k') := by
  intro p a q h
  obtain ⟨b, s, hb, ha⟩ := exec_bind_eq_ok.1 h
  obtain ⟨hps, hfirst⟩ := hm p b s hb
  obtain ⟨hsq, hrest⟩ := hk b (hP p b s hb) s a q ha
  refine ⟨Nat.le_trans hps hsq, fun hq hcommon hE => ?_⟩
  obtain ⟨⟨howed', hbcommon⟩, ha'⟩ := hrest (by omega) hcommon hE
  obtain ⟨howed, hb'⟩ := hfirst (by omega) hbcommon (hF b s a q ha (by omega) hE)
  exact ⟨⟨howed, howed'⟩, exec_bind_eq_ok.2 ⟨_, _, hb', ha'⟩⟩

theorem bind_knowing {P : β → Prop} {m m' : Parser β} {k k' : β → Parser α}
    (hm : Agrees r True m m') (hP : ∀ p b q, m.exec p = (.ok b, q) → P b)
    (hk : ∀ b, P b → AgreesWhen r E (owed ∧ IsCommon r b) (k b) (k' (recast r b))) :
    AgreesWhen r E owed (m >>= k) (m' >>= k') :=
  (bind_when hm hP (fun _ _ _ _ _ _ _ => trivial) hk).imp And.right fun _ _ => id

theorem bind_behind {F : β → Progress → Prop} {m m' : Parser β} {k k' : β → Parser α}
    (hm : AgreesWhen r F owed m m')
    (hF : ∀ b p a q, (k b).exec p = (.ok a, q) → q.surprises = p.surprises → E a q → F b p)
    (hk : ∀ b, AgreesWhen r E (IsCommon r b) (k b) (k' (recast r b))) :
    AgreesWhen r E owed (m >>= k) (m' >>= k') := by
  have hk (b : β) : AgreesWhen r E (True ∧ IsCommon r b) (k b) (k' (recast r b)) :=
    (hk b).imp (fun h => ⟨trivial, h⟩) fun _ _ => id
  exact (bind_when (P := fun _ => True) hm (fun _ _ _ _ => trivial) hF fun b _ => hk b).imp
    And.left fun _ _ => id

theorem bind {m m' : Parser β} {k k' : β → Parser α} (hm : Agrees r True m m')
    (hk : ∀ b, AgreesWhen r E (owed ∧ IsCommon r b) (k b) (k' (recast r b))) :
    AgreesWhen r E owed (m >>= k) (m' >>= k') :=
  bind_knowing (P := fun _ => True) hm (fun _ _ _ _ => trivial) fun b _ => hk b

/-- A first rule that is the same in both grammars, and what is known of its answer. -/
theorem bind_of_yields {n : Nat} {P : γ → Prop} {m : Parser γ} {k k' : γ → Parser α}
    (hm : Composed n m) (hy : Yields false P m) (hk : ∀ c, P c → AgreesWhen r E owed (k c) (k' c)) :
    AgreesWhen r E owed (m >>= k) (m >>= k') := by
  intro p a q h
  obtain ⟨c, s, hc, ha⟩ := exec_bind_eq_ok.1 h
  have hps : p.surprises ≤ s.surprises := (hm.steps hc).recorded_le
  obtain ⟨hsq, hrest⟩ := hk c ((hy p c s hc).2 nofun) s a q ha
  refine ⟨Nat.le_trans hps hsq, fun hq hcommon hE => ?_⟩
  obtain ⟨howed, ha'⟩ := hrest (by omega) hcommon hE
  exact ⟨howed, exec_bind_eq_ok.2 ⟨_, _, hc, ha'⟩⟩

/-- A first rule that is the same in both grammars. -/
theorem skip {m : Parser γ} {k k' : γ → Parser α} [hm : Composed 0 m]
    (hk : ∀ c, AgreesWhen r E owed (k c) (k' c)) : AgreesWhen r E owed (m >>= k) (m >>= k') :=
  bind_of_yields hm (.of_composed hm) fun c _ => hk c

/-- A rule that is the same in both grammars, and so are its answers. -/
theorem same {n : Nat} {m : Parser Node} (hm : Composed n m) (hy : Yields false (Tree.IsSame r) m) :
    Agrees r True m m := by
  intro p t q h
  refine ⟨(hm.steps h).recorded_le, fun _ _ _ => ⟨trivial, ?_⟩⟩
  have ht : recast r t = t := ((hy p t q h).2 nofun).2
  rw [ht, h]

theorem of_fits {n : Nat} {s : Slot} {m : Parser Node} (hm : Composed n m)
    (hy : Yields false (Fits false s) m) (hs : s.all Kind.isRecordFree = true) :
    Agrees r True m m :=
  same hm (hy.imp fun _ => .of_fits hs)

/-- A node that differs in its parts only. -/
theorem branch {k : Kind} (hk : k.isRecordSort = false) {E : Node → Progress → Prop}
    {cs cs' : List Node} (howed : (∀ c ∈ cs, c.isCommon r = true) → owed)
    (hcs : cs' = cs.map (Tree.recast r)) :
    AgreesWhen r E owed (return .branch k cs) (return .branch k cs') := by
  subst hcs
  exact pure fun h => ⟨howed (Tree.isCommon_branch.1 h).2, (Tree.recast_branch hk cs).symm⟩

theorem ifAt {t : Token} {yes yes' no no' : Parser α} (hy : AgreesWhen r E owed yes yes')
    (hn : AgreesWhen r E owed no no') :
    AgreesWhen r E owed (ifAt t yes no) (ifAt t yes' no') := by
  intro p a q hm
  rw [exec_ifAt] at hm ⊢
  split at hm
  · next ht => simpa only [if_pos ht] using hy p a q hm
  · next ht => simpa only [if_neg ht] using hn p a q hm

theorem ifAtAny {s : TokenSet} {yes yes' no no' : Parser α} (hy : AgreesWhen r E owed yes yes')
    (hn : AgreesWhen r E owed no no') :
    AgreesWhen r E owed (ifAtAny s yes no) (ifAtAny s yes' no') := by
  intro p a q hm
  rw [exec_ifAtAny] at hm ⊢
  split at hm
  · next ht => simpa only [if_pos ht] using hy p a q hm
  · next ht => simpa only [if_neg ht] using hn p a q hm

/-- A symbol that is unexpected ends the agreement. -/
theorem unexpected {e : Expected} {k : Unit → Parser α} {m' : Parser α}
    (hk : ∀ u, Composed 0 (k u)) : AgreesWhen r E owed (Parser.unexpected e >>= k) m' := by
  intro p a q hm
  have hlt := lt_surprises_of_unexpected hk hm
  exact ⟨Nat.le_of_lt hlt, fun hq => by omega⟩

/-- A choice by the next token. The last resort of the first rule may expect a token that is not
there. -/
theorem choose {k k' : Token → Parser α} (h : ∀ t, AgreesWhen r E owed (k t) (k' t) ∨
    ∃ s resync f, t ∉ s ∧ k t = (expectAny s resync >>= f) ∧ ∀ u, Composed 0 (f u)) :
    AgreesWhen r E owed (token >>= k) (token >>= k') := by
  intro p a q hm
  rw [exec_bind, exec_token, proceed_ok] at hm ⊢
  rcases h p.lookahead.token with hk | ⟨s, resync, f, hs, hk, hf⟩
  · exact hk p a q hm
  · rw [hk] at hm
    obtain ⟨u, x, hu, ha⟩ := exec_bind_eq_ok.1 hm
    have hpx : p.surprises ≤ x.surprises :=
      (Composed.steps (n := 0) inferInstance hu).recorded_le
    have hxq : x.surprises ≤ q.surprises := ((hf u).steps ha).recorded_le
    exact ⟨Nat.le_trans hpx hxq, fun hq => absurd (mem_of_expectAny hu (by omega)) hs⟩

/-- Behind the first rule a token is expected, and is there. -/
theorem bind_expect {F : Progress → Prop} {m m' : Parser α} (t : Token) (s : TokenSet)
    (hm : AgreesWhen r (fun _ => F) True m m') (hF : ∀ q, q.lookahead.token = t → F q) :
    Agrees r True (do let a ← m; expect t s; return a) (do let a ← m'; expect t s; return a) := by
  refine hm.bind_behind (fun b p a q h hq _ => ?_) fun a => .skip fun _ => .pure fun ha => ⟨ha, rfl⟩
  obtain ⟨u, x, hu, h⟩ := exec_bind_eq_ok.1 h
  cases h
  exact hF p (token_eq_of_expect hu hq)

/-! ## Repetition -/

/-- What is to hold behind the last round of a repetition. -/
def AtLast (E : α → Progress → Prop) : Round α → Progress → Prop
  | .more _, _ => True
  | .done a, q => E a q

/-- Behind a round come the other rounds, or nothing. -/
theorem bind_round {round round' : Parser (Round α)} {others others' : Round α → Parser α}
    (hr : AgreesWhen r (AtLast E) owed round round')
    (hmore : ∀ a, AgreesWhen r E (IsCommon r a) (others (.more a)) (others' (.more (recast r a))))
    (hdone : ∀ a, others (.done a) = return a) (hdone' : ∀ a, others' (.done a) = return a) :
    AgreesWhen r E owed (round >>= others) (round' >>= others') := by
  refine hr.bind_behind (fun x p a q h _ hE => ?_) fun x => ?_
  · cases x with
    | more b => exact trivial
    | done b =>
      rw [hdone] at h
      cases h
      exact hE
  · cases x with
    | more b => exact hmore b
    | done b =>
      change AgreesWhen _ _ _ (others (.done b)) (others' (.done (recast r b)))
      rw [hdone, hdone']
      exact .pure fun h => ⟨h, rfl⟩

/-- A round owes what was found before it. -/
theorem loop {round round' : α → Parser (Round α)}
    (hr : ∀ a, AgreesWhen r (AtLast E) (IsCommon r a) (round a) (round' (recast r a))) (a : α) :
    AgreesWhen r E (IsCommon r a) (loop round a) (loop round' (recast r a)) := by
  have hall (bound : List Item) (a : α) :
      AgreesWhen r E (IsCommon r a) (repeatOn round bound a)
        (repeatOn round' bound (recast r a)) := by
    induction bound generalizing a with
    | nil => exact (hr a).bind_round (fun _ => .stop) (fun _ => rfl) fun _ => rfl
    | cons i bound ih => exact (hr a).bind_round ih (fun _ => rfl) fun _ => rfl
  intro p b q hm
  exact hall p.ahead a p b q hm

/-- What is made of an answer afterwards. -/
theorem map {F : Progress → Prop} {m m' : Parser β} {f f' : β → α}
    (hm : AgreesWhen r (fun _ => F) True m m')
    (hf : ∀ b, IsCommon r (f b) → IsCommon r b ∧ f' (recast r b) = recast r (f b)) :
    AgreesWhen r (fun _ => F) True (m >>= fun b => return f b) (m' >>= fun b => return f' b) := by
  refine hm.bind_behind (fun b p a q h _ hF => ?_) fun b => .pure (hf b)
  cases h
  exact hF

theorem map_reverse {F : Progress → Prop} {m m' : Parser (List β)}
    (hm : AgreesWhen r (fun _ => F) True m m') :
    AgreesWhen r (fun _ => F) True (List.reverse <$> m) (List.reverse <$> m') := by
  rw [← bind_pure_comp, ← bind_pure_comp]
  refine hm.map fun bs hbs => ⟨fun b hb => hbs b (List.mem_reverse.2 hb), ?_⟩
  exact (List.map_reverse ..).symm

theorem separated {separator : Token} {item item' : Parser α} (hi : Agrees r True item item') :
    Agrees r True (separated separator item) (separated separator item') := by
  rw [separated_eq, separated_eq]
  refine .map_reverse (.imp (.loop (E := fun _ _ => True) (fun found => ?_) []) (fun _ => trivial)
    fun _ _ => id)
  refine hi.bind fun a => .ifAt (.skip fun _ => .pure fun h => ?_) (.pure fun h => ?_)
  · obtain ⟨ha, hfound⟩ := List.forall_mem_cons.1 h
    exact ⟨⟨hfound, ha⟩, rfl⟩
  · obtain ⟨ha, hfound⟩ := List.forall_mem_cons.1 h
    exact ⟨⟨hfound, ha⟩, rfl⟩

theorem whileAtAny {s : TokenSet} {item item' : Parser α} (hi : Agrees r True item item') :
    Agrees r True (whileAtAny s item) (whileAtAny s item') := by
  rw [whileAtAny_eq, whileAtAny_eq]
  refine .map_reverse (.imp (.loop (E := fun _ _ => True) (fun found => ?_) []) (fun _ => trivial)
    fun _ _ => id)
  refine .ifAtAny (hi.bind fun a => .pure fun h => ?_) (.pure fun h => ⟨h, rfl⟩)
  obtain ⟨ha, hfound⟩ := List.forall_mem_cons.1 h
  exact ⟨⟨hfound, ha⟩, rfl⟩

end AgreesWhen

end Parser

end Modula
