import Mathlib.Algebra.GroupWithZero.Nat
import Modula.Grammar.Declaration
import Modula.Proofs.Stream
import Modula.Proofs.Yields

/-!
# What is counted on the way

While a unit is read, its statements, procedures and declarations are counted, and opaque types in
the wrong place are reported. None of this looks at the tree, which is put together at other
moments. To compare the two, every node is given a weight for each counter: the number of nodes in
it that should have been counted. A rule tallies if it adds to a counter what its answer weighs.

Counting and weighing are rarely done in one step, so `Tallies` has an amount that is due: what
earlier rules added for parts that the answer will hold. Of most rules more is known. They are idle:
they add nothing, and in what they answer there is nothing to be counted.
-/

namespace Modula

open Modula.Parser Modula.Grammar

/-! ## The kinds in a tree -/

namespace Tree

variable {α : Type}

mutual

/-- The kinds of all nodes, in preorder. -/
def kinds : Tree α → List Kind
  | node k _ cs => k :: kindsAll cs

/-- The kinds of all nodes of a row of trees. -/
def kindsAll : List (Tree α) → List Kind
  | [] => []
  | t :: ts => t.kinds ++ kindsAll ts

end

theorem kindsAll_eq_flatMap (ts : List (Tree α)) : kindsAll ts = ts.flatMap kinds := by
  induction ts with
  | nil => rfl
  | cons t ts ih => rw [kindsAll, ih, List.flatMap_cons]

@[simp]
theorem kinds_branch (k : Kind) (cs : List (Tree α)) :
    (branch k cs).kinds = k :: cs.flatMap kinds := by
  rw [branch, kinds, kindsAll_eq_flatMap]

@[simp]
theorem kinds_leaf (k : Kind) (v : α) : (leaf k v).kinds = [k] := rfl

end Tree

namespace Kind

/-- The node is a statement. -/
def isStatement : Kind → Bool
  | assignment | procedureCall | ifStatement | caseStatement | loopStatement | whileStatement
  | repeatStatement | forStatement | returnStatement | exitStatement => true
  | _ => false

/-- The node is a procedure. -/
def isProcedure : Kind → Bool
  | procedureDefinition | procedureDeclaration => true
  | _ => false

/-- The node is a definition or a declaration. -/
def isDeclaration : Kind → Bool
  | constantDefinition | typeDefinition | variableDeclaration => true
  | k => k.isProcedure

/-- Nodes of the kind are counted somewhere. -/
def isCounted (k : Kind) : Bool := k.isStatement || k.isDeclaration || k = opaqueType

end Kind

/-! ## Counters -/

/-- What is counted. -/
inductive Counter where
  | statements | procedures | declarations
  /-- Reports of opaque types. -/
  | opaques

namespace Counter

/-- What a counter shows. Reports count as soon as they can be foreseen, so that it does not matter
when the faults in front of a symbol come into view. -/
def value (c : Counter) (p : Progress) : Nat :=
  match c with
  | statements => p.queue.stats.statements
  | procedures => p.queue.stats.procedures
  | declarations => p.queue.stats.declarations
  | opaques => p.foreseen.countP (·.code = .opaqueOutsideDefinition)

/-- Nodes of the kind are counted where they stand in the part. -/
def counts (c : Counter) (part : Part) (k : Kind) : Bool :=
  match c, part with
  | statements, _ => k.isStatement
  | procedures, _ => k.isProcedure
  | declarations, _ => k.isDeclaration
  | opaques, .declarations => k = .opaqueType
  | opaques, .definitions => false

/-- What a node of the kind adds to the weight of its parts. -/
def one (c : Counter) (part : Part) (k : Kind) : Nat := if c.counts part k then 1 else 0

/-- How many nodes of a tree are counted. -/
def weigh (c : Counter) (part : Part) (t : Node) : Nat := t.kinds.countP (c.counts part)

/-- How many nodes of a row of trees are counted. -/
def weighAll (c : Counter) (part : Part) (ts : List Node) : Nat := (ts.map (c.weigh part)).sum

variable {c : Counter} {part : Part}

@[simp]
theorem weighAll_nil : c.weighAll part [] = 0 := rfl

@[simp]
theorem weighAll_cons (t : Node) (ts : List Node) :
    c.weighAll part (t :: ts) = c.weigh part t + c.weighAll part ts := by
  rw [weighAll, weighAll, List.map_cons, List.sum_cons]

@[simp]
theorem weighAll_append (ts us : List Node) :
    c.weighAll part (ts ++ us) = c.weighAll part ts + c.weighAll part us := by
  rw [weighAll, weighAll, weighAll, List.map_append, List.sum_append]

/-- The order of the trees does not matter. -/
theorem weighAll_perm {ts us : List Node} (h : ts.Perm us) :
    c.weighAll part ts = c.weighAll part us := (h.map _).sum_nat

theorem weigh_branch (k : Kind) (cs : List Node) :
    c.weigh part (.branch k cs) = c.weighAll part cs + c.one part k := by
  rw [weigh, Tree.kinds_branch, List.countP_cons, List.countP_flatMap]
  rfl

/-- No counter counts a kind that is not counted anywhere. -/
theorem counts_of_not_isCounted {k : Kind} (hk : k.isCounted = false) :
    c.counts part k = false := by
  revert hk
  cases c <;> cases part <;> cases k <;> decide

theorem one_of_not_counts {k : Kind} (hk : c.counts part k = false) : c.one part k = 0 := by
  rw [one, hk]
  rfl

/-- A node that is not counted itself. -/
theorem weigh_branch_of_not_counts {k : Kind} (hk : c.counts part k = false) (cs : List Node) :
    c.weigh part (.branch k cs) = c.weighAll part cs := by
  rw [weigh_branch, one_of_not_counts hk, Nat.add_zero]

theorem weigh_uncounted {k : Kind} (hk : k.isCounted = false) (cs : List Node) :
    c.weigh part (.branch k cs) = c.weighAll part cs :=
  weigh_branch_of_not_counts (counts_of_not_isCounted hk) cs

/-- Statements weigh alike. -/
theorem one_of_isStatement {k : Kind} (hk : k.isStatement) :
    c.one part k = c.one part .assignment := by
  revert hk
  cases k <;> intro hk <;> first | contradiction | (cases c <;> cases part <;> rfl)

theorem weigh_statement {k : Kind} (hk : k.isStatement) (cs : List Node) :
    c.weigh part (.branch k cs) = c.weighAll part cs + c.one part .assignment := by
  rw [weigh_branch, one_of_isStatement hk]

@[simp]
theorem weigh_empty : c.weigh part .empty = 0 := by
  cases c <;> cases part <;> rfl

end Counter

/-! ## Trees in which nothing is counted -/

/-- The nodes of the kind are not counted, and in a tree of the right shape none below them is. -/
def Kind.isPlain : Kind → Bool
  | .definitionModule | .implementationModule | .programModule | .block | .definitionList
  | .declarationList | .constantDefinition | .typeDefinition | .variableDeclaration
  | .procedureDefinition | .procedureDeclaration | .opaqueType | .statementSequence
  | .assignment | .procedureCall | .ifStatement | .elsifList | .elsifBranch | .caseStatement
  | .caseList | .caseBranch | .loopStatement | .whileStatement | .repeatStatement | .forStatement
  | .returnStatement | .exitStatement => false
  | _ => true

/-- Only plain nodes may stand there. -/
def Slot.IsPlain (s : Slot) : Prop := ∀ k ∈ s.kinds, k.isPlain

instance (s : Slot) : Decidable s.IsPlain := inferInstanceAs (Decidable (∀ k ∈ s.kinds, k.isPlain))

theorem Slot.IsPlain.of_admits {g : Bool} {s : Slot} {k : Kind} (h : s.IsPlain)
    (hk : s.Admits g k) : k.isPlain := by
  rcases hk with hk | ⟨rfl, -⟩
  · exact h k hk
  · rfl

/-- Only plain nodes may stand in the places of a shape. -/
def Shape.IsPlain : Shape → Prop
  | parts slots => ∀ s ∈ slots, s.IsPlain
  | row slot => slot.IsPlain
  | terminal => True

instance : (s : Shape) → Decidable s.IsPlain
  | .parts slots => inferInstanceAs (Decidable (∀ s ∈ slots, s.IsPlain))
  | .row slot => inferInstanceAs (Decidable slot.IsPlain)
  | .terminal => inferInstanceAs (Decidable True)

theorem Kind.shape_isPlain {k : Kind} (hk : k.isPlain) : (shapeOf k).IsPlain := by
  revert hk
  cases k <;> decide

theorem Shape.IsPlain.kinds_of_parts {g : Bool} {slots : List Slot} {ts : List Node}
    (h : (parts slots).IsPlain) (hts : List.Forall₂ (fun s t => s.Admits g t.kind) slots ts) :
    ∀ t ∈ ts, t.kind.isPlain := by
  induction hts with
  | nil => nofun
  | cons ht _ ih =>
    obtain ⟨hs, hslots⟩ := List.forall_mem_cons.1 h
    exact List.forall_mem_cons.2 ⟨hs.of_admits ht, ih hslots⟩

namespace Counter

variable {c : Counter} {part : Part}

theorem counts_of_isPlain {k : Kind} (hk : k.isPlain) : c.counts part k = false := by
  refine counts_of_not_isCounted ?_
  revert hk
  cases k <;> decide

theorem weighAll_eq_zero {ts : List Node} (h : ∀ t ∈ ts, c.weigh part t = 0) :
    c.weighAll part ts = 0 := by
  induction ts with
  | nil => rfl
  | cons t ts ih =>
    obtain ⟨ht, hts⟩ := List.forall_mem_cons.1 h
    rw [weighAll_cons, ht, ih hts]

/-- Below a plain node of the right shape nothing is counted. -/
theorem weigh_of_wellShaped {g : Bool} {t : Node} (h : WellShaped g t) (ht : t.kind.isPlain) :
    c.weigh part t = 0 := by
  induction h with
  | @parts k _ _ hk hslots hcs ih =>
    rw [weigh_branch_of_not_counts (counts_of_isPlain (k := k) ht)]
    have hplain := hk ▸ Kind.shape_isPlain ht
    exact weighAll_eq_zero fun u hu => ih u hu (hplain.kinds_of_parts hslots u hu)
  | @row k _ _ hk hslot hcs ih =>
    rw [weigh_branch_of_not_counts (counts_of_isPlain (k := k) ht)]
    have hplain : Slot.IsPlain _ := hk ▸ Kind.shape_isPlain ht
    exact weighAll_eq_zero fun u hu => ih u hu (hplain.of_admits (hslot u hu))
  | @terminal k s hk =>
    rw [weigh, Tree.kinds_leaf, List.countP_singleton, counts_of_isPlain (k := k) ht]
    rfl

theorem weigh_of_fits {g : Bool} {s : Slot} {t : Node} (hs : s.IsPlain) (h : Fits g s t) :
    c.weigh part t = 0 := weigh_of_wellShaped h.2 (hs.of_admits h.1)

end Counter

/-! ## Steps that count nothing -/

theorem Statistics.record_counts (s : Statistics) (d : Diagnostic) :
    (s.record d).statements = s.statements ∧ (s.record d).procedures = s.procedures ∧
      (s.record d).declarations = s.declarations := by
  unfold record
  split <;> exact ⟨rfl, rfl, rfl⟩

theorem Queue.stats_append_counts (q : Queue) (ds : List Diagnostic) :
    (q.append ds).stats.statements = q.stats.statements ∧
      (q.append ds).stats.procedures = q.stats.procedures ∧
      (q.append ds).stats.declarations = q.stats.declarations := by
  induction ds generalizing q with
  | nil => exact ⟨rfl, rfl, rfl⟩
  | cons d ds ih =>
    obtain ⟨hs, hp, hd⟩ := ih (q.push d)
    obtain ⟨hs', hp', hd'⟩ := q.stats.record_counts d
    exact ⟨hs.trans hs', hp.trans hp', hd.trans hd'⟩

namespace Counter

@[simp]
theorem value_advance (c : Counter) (p : Progress) : c.value p.advance = c.value p := by
  unfold Progress.advance
  split
  · rfl
  · next i ahead hp =>
    obtain ⟨hs, hpr, hd⟩ := p.queue.stats_append_counts i.reports
    cases c with
    | statements => exact hs
    | procedures => exact hpr
    | declarations => exact hd
    | opaques =>
      have hsame := p.foreseen_advance
      rw [Progress.advance, hp] at hsame
      rw [value, value, hsame]

@[simp]
theorem value_skipTo (c : Counter) (s : TokenSet) (p : Progress) :
    c.value (p.skipTo s) = c.value p := by
  refine Progress.skipTo_induction (motive := fun q => c.value q = c.value p) s ?_ p rfl
  intro q hq
  rw [value_advance, hq]

theorem value_report (c : Counter) (p : Progress) {d : Diagnostic}
    (hd : d.code ≠ .opaqueOutsideDefinition) : c.value (p.report d) = c.value p := by
  obtain ⟨hs, hpr, hdecl⟩ := p.queue.stats.record_counts d
  cases c with
  | statements => exact hs
  | procedures => exact hpr
  | declarations => exact hdecl
  | opaques =>
    simp only [value, Progress.foreseen, Progress.report, Queue.toList_push, List.countP_append,
      List.countP_singleton, decide_eq_true_eq, if_neg hd, Nat.add_zero]

/-- The report of an opaque type. -/
theorem value_report_opaque (c : Counter) (p : Progress) {d : Diagnostic}
    (hd : d.code = .opaqueOutsideDefinition) :
    c.value (p.report d) = c.value p + c.one .declarations .opaqueType := by
  obtain ⟨hs, hpr, hdecl⟩ := p.queue.stats.record_counts d
  cases c with
  | statements => exact hs
  | procedures => exact hpr
  | declarations => exact hdecl
  | opaques =>
    simp only [value, Progress.foreseen, Progress.report, Queue.toList_push, List.countP_append,
      List.countP_singleton, decide_eq_true_eq, if_pos hd, Nat.add_right_comm]
    rfl

end Counter

namespace Parser

variable {α β : Type}

/-! ## Idle rules -/

/-- The rule counts nothing. -/
class Idle (m : Parser α) : Prop where
  value_eq : ∀ (c : Counter) (p : Progress) (a : α) (q : Progress),
    m.exec p = (.ok a, q) → c.value q = c.value p

namespace Idle

/-- An operation that answers behind a step that counts nothing. -/
theorem of_exec {m : Parser α} (h : ∀ p, ∃ a q, m.exec p = (.ok a, q) ∧
    ∀ c : Counter, c.value q = c.value p) : Idle m where
  value_eq c p a q hm := by
    obtain ⟨b, r, hr, hv⟩ := h p
    rw [hm] at hr
    cases hr
    exact hv c

theorem bind {m : Parser α} {k : α → Parser β} (hm : Idle m) (hk : ∀ a, Idle (k a)) :
    Idle (m >>= k) where
  value_eq c p b q h := by
    obtain ⟨a, r, hr, hq⟩ := exec_bind_eq_ok.1 h
    rw [(hk a).value_eq c r b q hq, hm.value_eq c p a r hr]

/-- A report of anything but an opaque type. -/
theorem report {d : Diagnostic} (hd : d.code ≠ .opaqueOutsideDefinition) :
    Idle (Parser.report d) :=
  of_exec fun p => ⟨_, _, rfl, fun c => c.value_report p hd⟩

theorem repeatOn {round : α → Parser (Round α)} (hr : ∀ a, Idle (round a)) (bound : List Item)
    (a : α) : Idle (repeatOn round bound a) := by
  induction bound generalizing a with
  | nil =>
    refine (hr a).bind fun b => ?_
    cases b with
    | more b => exact ⟨fun _ _ _ _ => nofun⟩
    | done b => exact of_exec fun p => ⟨_, p, rfl, fun _ => rfl⟩
  | cons i bound ih =>
    refine (hr a).bind fun b => ?_
    cases b with
    | more b => exact ih b
    | done b => exact of_exec fun p => ⟨_, p, rfl, fun _ => rfl⟩

instance (a : α) : Idle (pure a : Parser α) := of_exec fun p => ⟨_, p, rfl, fun _ => rfl⟩

instance {m : Parser α} {k : α → Parser β} [hm : Idle m] [hk : ∀ a, Idle (k a)] :
    Idle (m >>= k) := hm.bind hk

instance {m : Parser α} {f : α → β} [hm : Idle m] : Idle (f <$> m) := by
  rw [← bind_pure_comp]
  infer_instance

instance {c : Prop} [Decidable c] {yes no : Parser α} [hy : Idle yes] [hn : Idle no] :
    Idle (if c then yes else no) := by
  split
  · exact hy
  · exact hn

instance : Idle lookahead := of_exec fun p => ⟨_, p, rfl, fun _ => rfl⟩

instance : Idle token := of_exec fun p => ⟨_, p, rfl, fun _ => rfl⟩

instance : Idle advance := of_exec fun p => ⟨_, _, rfl, fun c => c.value_advance p⟩

instance : Idle next := of_exec fun p => ⟨_, _, rfl, fun c => c.value_advance p⟩

instance (k : Kind) : Idle (leaf k) := of_exec fun p => ⟨_, _, rfl, fun c => c.value_advance p⟩

instance (s : TokenSet) : Idle (skipTo s) :=
  of_exec fun p => ⟨_, _, rfl, fun c => c.value_skipTo s p⟩

instance (e : Expected) : Idle (unexpected e) :=
  of_exec fun p => ⟨_, _, rfl, fun c => c.value_report p nofun⟩

instance (t : Token) (yes no : Parser α) [Idle yes] [Idle no] : Idle (ifAt t yes no) := by
  unfold ifAt
  infer_instance

instance (s : TokenSet) (yes no : Parser α) [Idle yes] [Idle no] : Idle (ifAtAny s yes no) := by
  unfold ifAtAny
  infer_instance

instance (t : Token) (s : TokenSet) : Idle (accept t s) := by
  unfold accept
  infer_instance

instance (t : Token) (s : TokenSet) : Idle (expect t s) := by
  rw [expect_eq]
  infer_instance

instance (s r : TokenSet) : Idle (expectAny s r) := by
  unfold expectAny
  infer_instance

instance (s : TokenSet) : Idle (ident s) := by
  unfold ident
  infer_instance

theorem code_ne_of_closingFault? {opening : Option Symbol} {closing : Symbol} {d : Diagnostic}
    (h : closingFault? opening closing = some d) : d.code ≠ .opaqueOutsideDefinition := by
  unfold closingFault? at h
  cases opening with
  | none => cases h
  | some opening =>
    dsimp only at h
    split at h
    · cases h
    · cases h; exact nofun

instance (opening : Option Symbol) : Idle (noteClosing opening) := by
  refine of_exec fun p => ?_
  rw [exec_noteClosing]
  cases h : closingFault? opening p.lookahead with
  | none => exact ⟨(), p, rfl, fun _ => rfl⟩
  | some d => exact ⟨(), p.report d, rfl, fun c => c.value_report p (code_ne_of_closingFault? h)⟩

instance (opening : Option Symbol) (s : TokenSet) : Idle (closing opening s) := by
  rw [closing_eq]
  infer_instance

instance (round : α → Parser (Round α)) (a : α) [hr : ∀ a, Idle (round a)] :
    Idle (loop round a) where
  value_eq c p := (Idle.repeatOn hr p.ahead a).value_eq c p

instance (t : Token) (item : Parser α) [Idle item] : Idle (separated t item) := by
  unfold separated
  infer_instance

instance (s : TokenSet) (item : Parser α) [Idle item] : Idle (whileAtAny s item) := by
  unfold whileAtAny
  infer_instance

end Idle

/-! ## Rules that tally -/

/-- What a round answers, weighed whether or not there is another one. -/
def Round.weigh (w : α → Nat) : Round α → Nat
  | .more a => w a
  | .done a => w a

/-- What the rule adds to the counter is what its answer weighs, less what is due. -/
def Tallies (c : Counter) (due : Nat) (w : α → Nat) (m : Parser α) : Prop :=
  ∀ p a q, m.exec p = (.ok a, q) → c.value q + due = c.value p + w a

namespace Tallies

variable {c : Counter} {due : Nat} {w : α → Nat} {w' : β → Nat}

theorem pure {a : α} (h : w a = due) : Tallies c due w (Pure.pure a) := by
  intro p b q hm
  cases hm
  rw [h]

/-- A rule that stops answers nothing. -/
theorem stop {s : Stop} : Tallies c due w (throw s) := fun _ _ _ => nofun

/-- What the first rule has added is due in the second one. -/
theorem bind {m : Parser α} {k : α → Parser β} (hm : Tallies c 0 w m)
    (hk : ∀ a, Tallies c (due + w a) w' (k a)) : Tallies c due w' (m >>= k) := by
  intro p b q h
  obtain ⟨a, r, hr, hq⟩ := exec_bind_eq_ok.1 h
  have := hm p a r hr
  have := hk a r b q hq
  omega

/-- What the first rule answers is all that is due in the second one. -/
theorem chain {m : Parser α} {k : α → Parser β} (hm : Tallies c due w m)
    (hk : ∀ a, Tallies c (w a) w' (k a)) : Tallies c due w' (m >>= k) := by
  intro p b q h
  obtain ⟨a, r, hr, hq⟩ := exec_bind_eq_ok.1 h
  have := hm p a r hr
  have := hk a r b q hq
  omega

/-- A first rule of which something is known besides. -/
theorem bind_of_yields {P : α → Prop} {m : Parser α} {k : α → Parser β} (hm : Tallies c 0 w m)
    (hy : Yields false P m) (hk : ∀ a, P a → Tallies c (due + w a) w' (k a)) :
    Tallies c due w' (m >>= k) := by
  intro p b q h
  obtain ⟨a, r, hr, hq⟩ := exec_bind_eq_ok.1 h
  have := hm p a r hr
  have := hk a ((hy p a r hr).2 nofun) r b q hq
  omega

/-- A first rule that counts nothing. -/
theorem skip {m : Parser α} {k : α → Parser β} [hm : Idle m] (hk : ∀ a, Tallies c due w' (k a)) :
    Tallies c due w' (m >>= k) := by
  intro p b q h
  obtain ⟨a, r, hm', hq⟩ := exec_bind_eq_ok.1 h
  rw [← hm.value_eq c p a r hm']
  exact hk a r b q hq

theorem imp {v : α → Nat} {m : Parser α} (h : Tallies c due w m) (hv : ∀ a, w a = v a) :
    Tallies c due v m := by
  intro p a q hm
  rw [← hv a]
  exact h p a q hm

theorem count {n : Nat} {f : Statistics → Statistics}
    (hf : ∀ p : Progress, c.value (p.count f) = c.value p + n) :
    Tallies c 0 (fun _ => n) (Parser.count f) := by
  intro p a q hm
  cases hm
  exact hf p

theorem map {f : α → β} {m : Parser α} (h : Tallies c due (fun a => w' (f a)) m) :
    Tallies c due w' (f <$> m) := by
  intro p b q hm
  rw [← bind_pure_comp] at hm
  obtain ⟨a, r, hr, hq⟩ := exec_bind_eq_ok.1 hm
  cases hq
  exact h p a _ hr

/-- What was due of the answer is counted behind it. -/
theorem settle {n : Nat} {m : Parser α} {f : Statistics → Statistics} (hm : Tallies c n w m)
    (hf : ∀ p : Progress, c.value (p.count f) = c.value p + n) :
    Tallies c 0 w (do let a ← m; Parser.count f; return a) := by
  intro p a q h
  obtain ⟨b, r, hr, hq⟩ := exec_bind_eq_ok.1 h
  cases hq
  rw [hf, Nat.add_zero]
  exact hm p a r hr

/-- A rule that counts nothing and answers nothing that is counted. -/
theorem of_idle {P : α → Prop} {m : Parser α} [hi : Idle m] (hy : Yields false P m)
    (hP : ∀ a, P a → w a = 0) : Tallies c 0 w m := by
  intro p a q hm
  rw [hi.value_eq c p a q hm, hP a ((hy p a q hm).2 nofun)]

theorem ite {b : Prop} [Decidable b] {yes no : Parser α} (hy : Tallies c due w yes)
    (hn : Tallies c due w no) : Tallies c due w (if b then yes else no) := by
  split
  · exact hy
  · exact hn

theorem ifAt {t : Token} {yes no : Parser α} (hy : Tallies c due w yes)
    (hn : Tallies c due w no) : Tallies c due w (ifAt t yes no) :=
  .skip fun _ => .ite hy hn

theorem ifAtAny {s : TokenSet} {yes no : Parser α} (hy : Tallies c due w yes)
    (hn : Tallies c due w no) : Tallies c due w (ifAtAny s yes no) :=
  .skip fun _ => .ite hy hn

/-! ### Repetition -/

theorem repeatOn {round : α → Parser (Round α)}
    (hr : ∀ a, Tallies c (w a) (Round.weigh w) (round a)) (bound : List Item) (a : α) :
    Tallies c (w a) w (repeatOn round bound a) := by
  induction bound generalizing a with
  | nil =>
    refine (hr a).chain fun b => ?_
    cases b with
    | more b => exact .stop
    | done b => exact .pure rfl
  | cons i bound ih =>
    refine (hr a).chain fun b => ?_
    cases b with
    | more b => exact ih b
    | done b => exact .pure rfl

/-- A repetition tallies if every round does, with what was found before it being due. -/
theorem loop {round : α → Parser (Round α)}
    (hr : ∀ a, Tallies c (w a) (Round.weigh w) (round a)) (a : α) :
    Tallies c (w a) w (loop round a) :=
  fun p => repeatOn hr p.ahead a p

theorem whileAtAny {part : Part} {s : TokenSet} {item : Parser Node}
    (hi : Tallies c 0 (c.weigh part) item) :
    Tallies c 0 (c.weighAll part) (whileAtAny s item) := by
  rw [whileAtAny_eq]
  refine .map (.imp (loop (w := c.weighAll part) (fun found => ?_) []) fun found => ?_)
  · refine .ifAtAny (hi.bind fun t => .pure ?_) (.pure rfl)
    rw [Round.weigh, Counter.weighAll_cons, Nat.add_comm]
  · exact Counter.weighAll_perm (List.reverse_perm found).symm

end Tallies

end Parser

end Modula
