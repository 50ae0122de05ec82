/-!
# Paths

A path is a sequence of names between slashes. Empty names, and names that are a single dot,
stay where they are and do not count.
-/

namespace Modula.Path

/-- The names of a path that lead somewhere, in order. -/
def names (path : String) : List String :=
  ((path.toList.splitOn '/').map String.ofList).filter fun name => name != "" && name != "."

/-- The last name of a path, unless it leads to the parent directory. -/
def fileName? (path : String) : Option String := (names path).getLast?.filter (· != "..")

/-- The part of the last name behind its last dot. A dot in front of a name does not count. -/
def extension? (path : String) : Option String := do
  let name ← fileName? path
  let back := name.toList.reverse
  let ending := back.takeWhile (· != '.')
  match back.drop ending.length with
  | _ :: _ :: _ => some (String.ofList ending.reverse)
  | _ => none

end Modula.Path
