import Modula.Source.Path

/-!
# Directories

A directory that is known in full: a list of files and empty directories by the names that lead to
them. The directories on the way to an entry exist because the entry does.
-/

namespace Modula

/-- Why a file cannot be read. -/
inductive ReadFault where
  /-- There is no such file. -/
  | notFound
  /-- No file can have such a name. -/
  | invalidName
  /-- The file is not for this user to read. -/
  | denied
  /-- Anything else, in the words of the device. -/
  | device (reason : String)
deriving DecidableEq, Repr

namespace ReadFault

/-- A directory stands where a file was wanted. -/
def isDirectory : ReadFault := device "Is a directory (os error 21)"

/-- A file stands where a directory was wanted. -/
def notDirectory : ReadFault := device "Not a directory (os error 20)"

end ReadFault

/-- The entries of a directory and of all directories below it, each under the names that lead to
it; `none` stands for an empty directory. -/
structure Directory where
  entries : List (List String × Option ByteArray)

namespace Directory

/-- What a sequence of names can lead to. -/
inductive Node where
  | file (bytes : ByteArray)
  | directory

/-- What stands at the end of a sequence of names. -/
def node? (d : Directory) (names : List String) : Option Node :=
  match d.entries.find? (·.1 == names) with
  | some (_, some bytes) => some (.file bytes)
  | some (_, none) => some .directory
  | none =>
    if names.isEmpty || d.entries.any (fun e => names.isPrefixOf e.1) then some .directory
    else none

/-- Walks from a place, given by the names that lead to it in reverse, along more names. What lies
above the directory is unknown and counts as absent. -/
def walk (d : Directory) (place : List String) : List String → Except ReadFault Node
  | [] =>
    match d.node? place.reverse with
    | some node => .ok node
    | none => .error .notFound
  | name :: names =>
    match d.node? place.reverse with
    | none => .error .notFound
    | some (.file _) => .error .notDirectory
    | some .directory =>
      if name = ".." then
        match place with
        | [] => .error .notFound
        | _ :: parent => d.walk parent names
      else d.walk (name :: place) names

/-- Reads the file at a path. A slash or a single dot at the end asks for a directory. -/
def read (d : Directory) (path : String) : Except ReadFault ByteArray :=
  if path.toList.contains '\x00' then .error .invalidName
  else if path.isEmpty || path.toList.head? == some '/' then .error .notFound
  else
    match d.walk [] (Path.names path) with
    | .error fault => .error fault
    | .ok .directory => .error .isDirectory
    | .ok (.file bytes) =>
      match (path.toList.splitOn '/').getLast? with
      | some [] | some ['.'] => .error .notDirectory
      | _ => .ok bytes

end Directory

end Modula
