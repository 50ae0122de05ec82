import Modula.Tree.Kind

/-!
# Syntax trees

One uniform shape serves every construct: a node has a kind, possibly a value, and its parts in
order. An absent optional part is a node of kind `empty`, so the parts of most kinds can be found
by position. The type of the values is a parameter: the parser hangs the scanned symbols into the
tree, other tools a handle or a text.

A tree is printed as an S-expression, `(KIND "text" part ...)`. Quotes and backslashes of a text
are escaped, so the printed form determines the tree.
-/

namespace Modula

/-- A node with everything below it. -/
inductive Tree (α : Type) where
  | node (kind : Kind) (value : Option α) (children : List (Tree α))
deriving Repr

namespace Tree

variable {α β : Type}

/-- An inner node: no value of its own. -/
def branch (kind : Kind) (children : List (Tree α)) : Tree α := node kind none children

/-- A terminal node with its value. -/
def leaf (kind : Kind) (value : α) : Tree α := node kind (some value) []

/-- A node with neither value nor parts. -/
def bare (kind : Kind) : Tree α := branch kind []

/-- The placeholder for an absent part. -/
def empty : Tree α := bare .empty

instance : Inhabited (Tree α) := ⟨empty⟩

/-- What the node stands for. -/
def kind : Tree α → Kind
  | node k _ _ => k

/-- The value of the node itself. -/
def value? : Tree α → Option α
  | node _ v _ => v

/-- The parts, in order. -/
def children : Tree α → List (Tree α)
  | node _ _ cs => cs

/-- The part at a position, counted from 0. -/
def child? (t : Tree α) (i : Nat) : Option (Tree α) := t.children[i]?

/-- The node is the placeholder. -/
def isEmpty (t : Tree α) : Bool := t.kind == .empty

/-- The node with one more part at its end. -/
def push (t : Tree α) (part : Tree α) : Tree α := node t.kind t.value? (t.children ++ [part])

mutual

/-- The number of nodes. -/
def size : Tree α → Nat
  | node _ _ cs => 1 + sizeAll cs

/-- The number of nodes of a row of trees. -/
def sizeAll : List (Tree α) → Nat
  | [] => 0
  | t :: ts => t.size + sizeAll ts

end

mutual

/-- The tree with every value replaced. -/
def map (f : α → β) : Tree α → Tree β
  | node k v cs => node k (v.map f) (mapAll f cs)

/-- A row of trees with every value replaced. -/
def mapAll (f : α → β) : List (Tree α) → List (Tree β)
  | [] => []
  | t :: ts => t.map f :: mapAll f ts

end

theorem mapAll_eq_map (f : α → β) (ts : List (Tree α)) : mapAll f ts = ts.map (map f) := by
  induction ts with
  | nil => rfl
  | cons t ts ih => rw [mapAll, ih, List.map_cons]

mutual

/-- Equal in shape, kinds and values. -/
def equal [BEq α] : Tree α → Tree α → Bool
  | node k v cs, node k' v' cs' => k == k' && v == v' && equalAll cs cs'

/-- Rows of trees that are equal one by one. -/
def equalAll [BEq α] : List (Tree α) → List (Tree α) → Bool
  | [], [] => true
  | t :: ts, u :: us => t.equal u && equalAll ts us
  | _, _ => false

end

instance [BEq α] : BEq (Tree α) := ⟨equal⟩

/-! ## Printing -/

/-- A text with its backslashes and quotes escaped. -/
def escape : List Char → List Char
  | [] => []
  | c :: cs => if c = '\\' ∨ c = '\x22' then '\\' :: c :: escape cs else c :: escape cs

mutual

/-- The S-expression of a tree, written in front of `rest`. -/
def writeOnto (rest : List Char) : Tree String → List Char
  | node k v cs =>
    let parts := writeAllOnto (')' :: rest) cs
    let text := match v with
      | none => parts
      | some s => ' ' :: '\x22' :: (escape s.toList ++ '\x22' :: parts)
    '(' :: (k.name.toList ++ text)

/-- The S-expressions of a row of trees, each after a blank, written in front of `rest`. -/
def writeAllOnto (rest : List Char) : List (Tree String) → List Char
  | [] => rest
  | t :: ts => ' ' :: writeOnto (writeAllOnto rest ts) t

end

/-- The S-expression of a tree whose values are texts. -/
def sexpr (t : Tree String) : String := String.ofList (writeOnto [] t)

end Tree

end Modula
