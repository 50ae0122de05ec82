import Modula.Proofs.Counts

/-!
# How deep trees are

The limit on nesting is a limit on how deep the rules call each other. A chain of operators of one
level, and a row of selectors, is read in a loop; each round of it puts a node on top of the tree
that it has so far. Such a node is a link. A path of the tree has as many links as there are
operators and selectors in a row, whatever the limit. So a tree is measured twice: by its height,
and by its depth, where the steps from a link to what it continues are not counted.

Where nothing nested can stand, the documented shape is bound enough.
-/

namespace Modula

open Modula.Parser

/-- A node of the kind goes on with its first part: an operator of a chain, or a selector. -/
def Kind.isLink : Kind → Bool
  | plus | minus | or | times | divide | div | mod | and | field | subscript | dereference => true
  | _ => false

namespace Tree

variable {α : Type}

mutual

/-- The number of nodes on the longest path from the root to a leaf. -/
def height : Tree α → Nat
  | node _ _ cs => heightAll cs + 1

/-- The height of the highest tree of a row. -/
def heightAll : List (Tree α) → Nat
  | [] => 0
  | t :: ts => max t.height (heightAll ts)

end

mutual

/-- The height, where a link does not count on a path into its first part. -/
def depth : Tree α → Nat
  | node _ _ [] => 1
  | node k _ (c :: cs) =>
    if k.isLink then max c.depth (depthAll cs + 1) else max c.depth (depthAll cs) + 1

/-- The depth of the deepest tree of a row. -/
def depthAll : List (Tree α) → Nat
  | [] => 0
  | t :: ts => max t.depth (depthAll ts)

end

theorem heightAll_le_iff {ts : List (Tree α)} {n : Nat} :
    heightAll ts ≤ n ↔ ∀ t ∈ ts, t.height ≤ n := by
  induction ts with
  | nil => simp [heightAll]
  | cons t ts ih => rw [heightAll, Nat.max_le, ih, List.forall_mem_cons]

theorem depthAll_le_iff {ts : List (Tree α)} {n : Nat} :
    depthAll ts ≤ n ↔ ∀ t ∈ ts, t.depth ≤ n := by
  induction ts with
  | nil => simp [depthAll]
  | cons t ts ih => rw [depthAll, Nat.max_le, ih, List.forall_mem_cons]

/-! ## Height and depth -/

mutual

/-- A tree is not deeper than it is high. -/
theorem depth_le_height (t : Tree α) : t.depth ≤ t.height := by
  match t with
  | node _ _ [] => exact Nat.le_refl 1
  | node k _ (c :: cs) =>
    have hc := depth_le_height c
    have hcs := depthAll_le_heightAll cs
    rw [depth, height, heightAll]
    split <;> omega

theorem depthAll_le_heightAll (ts : List (Tree α)) : depthAll ts ≤ heightAll ts := by
  match ts with
  | [] => exact Nat.le_refl _
  | t :: ts =>
    have ht := depth_le_height t
    have hts := depthAll_le_heightAll ts
    rw [depthAll, heightAll]
    omega

end

/-- The number of links of a tree. -/
def links (t : Tree α) : Nat := t.kinds.countP (·.isLink)

/-- The number of links of a row of trees. -/
def linksAll (ts : List (Tree α)) : Nat := (kindsAll ts).countP (·.isLink)

theorem linksAll_cons (t : Tree α) (ts : List (Tree α)) :
    linksAll (t :: ts) = t.links + linksAll ts := by
  rw [linksAll, kindsAll, List.countP_append]
  rfl

theorem links_node (k : Kind) (v : Option α) (cs : List (Tree α)) :
    (node k v cs).links = linksAll cs + if k.isLink then 1 else 0 := by
  rw [links, kinds, List.countP_cons]
  rfl

mutual

/-- What the depth does not count are links. -/
theorem height_le (t : Tree α) : t.height ≤ t.depth + t.links := by
  match t with
  | node _ _ [] =>
    rw [height, heightAll, depth]
    omega
  | node k _ (c :: cs) =>
    have hc := height_le c
    have hcs := heightAll_le cs
    rw [height, heightAll, depth, links_node, linksAll_cons]
    split <;> omega

theorem heightAll_le (ts : List (Tree α)) : heightAll ts ≤ depthAll ts + linksAll ts := by
  match ts with
  | [] => exact Nat.zero_le _
  | t :: ts =>
    have ht := height_le t
    have hts := heightAll_le ts
    rw [heightAll, depthAll, linksAll_cons]
    omega

end

/-! ## The depth of a node -/

variable {k : Kind} {n : Nat}

theorem depth_branch_le (hk : k.isLink = false) {cs : List (Tree α)}
    (h : ∀ c ∈ cs, c.depth ≤ n) : (branch k cs).depth ≤ n + 1 := by
  cases cs with
  | nil =>
    rw [branch, depth]
    omega
  | cons c cs =>
    rw [branch, depth, if_neg (by simp [hk])]
    exact Nat.succ_le_succ (depthAll_le_iff.2 h)

/-- A link puts nothing on top of what it continues. -/
theorem depth_link_le (hk : k.isLink = true) {first : Tree α} {others : List (Tree α)}
    (hfirst : first.depth ≤ n + 1) (h : ∀ c ∈ others, c.depth ≤ n) :
    (branch k (first :: others)).depth ≤ n + 1 := by
  rw [branch, depth, if_pos hk]
  exact Nat.max_le.2 ⟨hfirst, Nat.succ_le_succ (depthAll_le_iff.2 h)⟩

end Tree

/-! ## Kinds with a height of their own -/

/-- A tree of the right shape under a node of the kind is not higher than that. -/
def Kind.isWithin : Nat → Kind → Bool
  | 0, _ => false
  | n + 1, k => (shapeOf k).all (isWithin n)

theorem WellShaped.height_le {g : Bool} {n : Nat} {t : Node} (h : WellShaped g t)
    (hn : t.kind.isWithin n = true) : t.height ≤ n := by
  induction n generalizing t with
  | zero => cases hn
  | succ n ih =>
    have hchildren := h.children hn
    cases t with
    | node k v cs =>
      refine Nat.succ_le_succ (Tree.heightAll_le_iff.2 fun c hc => ?_)
      obtain ⟨hshaped, hkind⟩ := hchildren c hc
      exact ih hshaped hkind

theorem Fits.depth_le {g : Bool} {n : Nat} {s : Slot} {t : Node} (h : Fits g s t)
    (hs : s.all (Kind.isWithin n) = true) : t.depth ≤ n :=
  Nat.le_trans t.depth_le_height (h.2.height_le (Slot.all_of_admits hs h.1))

/-! ## Rules with answers that are not too deep -/

namespace Parser

/-- What the rule answers has at most so many levels. -/
abbrev Shallow (n : Nat) (m : Parser Node) : Prop := Yields false (·.depth ≤ n) m

theorem Shallow.mono {n n' : Nat} {m : Parser Node} (h : Shallow n m) (hn : n ≤ n') :
    Shallow n' m := h.imp fun _ ht => Nat.le_trans ht hn

theorem Shallow.of_fits {n : Nat} {s : Slot} {m : Parser Node} (h : Yields false (Fits false s) m)
    (hs : s.all (Kind.isWithin n) = true) : Shallow n m := h.imp fun _ ht => ht.depth_le hs

/-- What is said of the first answer is known when the second rule is read. -/
theorem Yields.chain {α β : Type} {P : α → Prop} {Q : β → Prop} {m : Parser α} {k : α → Parser β}
    (hm : Yields false P m) (hk : ∀ a, P a → Yields false Q (k a)) :
    Yields false Q (m >>= k) := by
  intro p b q h
  obtain ⟨a, r, hr, hq⟩ := exec_bind_eq_ok.1 h
  obtain ⟨hpr, ha⟩ := hm p a r hr
  obtain ⟨hrq, hb⟩ := hk a (ha nofun) r b q hq
  exact ⟨Nat.le_trans hpr hrq, fun _ => hb nofun⟩

end Parser

end Modula
