import Std.Data.HashMap

/-!
# String tables

A table keeps each string once and answers for it with a handle, its place in the order of first
arrival. It finds the handle of a string in a map and the string of a handle in a vector. The empty
string is in every table, at place 0. Since no string is kept twice, two handles of one table are
equal exactly when their strings are.
-/

namespace Modula

/-- A handle to a string of a table: its place there. -/
structure Handle where
  index : Nat
deriving DecidableEq, Repr

/-- The handle of the empty string, the same in every table. -/
def Handle.empty : Handle := ⟨0⟩

/-- A table of strings. -/
structure Interner where
  /-- The handle of each string. -/
  map : Std.HashMap String Handle
  /-- The strings in the order of their first arrival. -/
  strings : Array String

namespace Interner

/-- The handle of a string that is in the table. -/
def get? (table : Interner) (s : String) : Option Handle := table.map[s]?

/-- The handle of a string, which is added to the table if it is not there yet. -/
def intern (table : Interner) (s : String) : Handle × Interner :=
  match table.get? s with
  | some n => (n, table)
  | none =>
    let n : Handle := ⟨table.strings.size⟩
    (n, ⟨table.map.insert s n, table.strings.push s⟩)

/-- The table that holds the empty string alone. -/
def new : Interner := (intern ⟨∅, #[]⟩ "").2

instance : Inhabited Interner := ⟨new⟩

/-- The table after all of the strings have been added in turn. -/
def internAll (table : Interner) (strings : List String) : Interner :=
  strings.foldl (fun t s => (t.intern s).2) table

/-- The string of a handle; a handle that the table never gave out stands for the empty string. -/
def lookup (table : Interner) (n : Handle) : String := table.strings.getD n.index ""

/-- The number of bytes of a handle's string. -/
def length (table : Interner) (n : Handle) : Nat := (table.lookup n).utf8ByteSize

/-- The number of strings, the empty one included. -/
def size (table : Interner) : Nat := table.strings.size

/-- Nothing but the empty string is in the table. -/
def isEmpty (table : Interner) : Bool := table.size ≤ 1

/-- A table as a trace shows it: by its size alone. -/
def summary (table : Interner) : String :=
  "StringInterner \x7b len: " ++ toString table.size ++ ", .. \x7d"

end Interner

end Modula
