import Modula.Source.Directory
import Modula.Text.Lines
import Modula.Text.Utf8

/-!
# Sources

The text of one compilation unit and how it is obtained from a file. Bytes that are no text are
replaced rather than refused; the scanner reports the replacements as illegal characters.

A source can also be laid out in memory behind which at least one zero byte stands, up to a
multiple of 64 bytes, so that a reader may look beyond its end.
-/

namespace Modula

/-- Why there is no source at a path. -/
inductive SourceError where
  | invalidFilename (path : String)
  | notFound (path : String)
  | denied (path : String)
  | device (path reason : String)
deriving DecidableEq, Repr

/-- The wording of the error. -/
def SourceError.message : SourceError → String
  | invalidFilename path => s!"invalid source file name `{path}`"
  | notFound path => s!"source file `{path}` not found"
  | denied path => s!"access to source file `{path}` denied"
  | device path reason => s!"device error reading `{path}`: {reason}"

/-- A way to get the bytes of a file. -/
abbrev FileReader := String → Except ReadFault ByteArray

/-- The text of one compilation unit. -/
structure Source where
  text : String
deriving DecidableEq, Repr

namespace Source

/-- The source in the file at a path. -/
def ofPath (read : FileReader) (path : String) : Except SourceError Source :=
  if (Path.fileName? path).isNone then .error (.invalidFilename path)
  else
    match read path with
    | .ok bytes => .ok ⟨Text.ofBytes bytes⟩
    | .error .notFound => .error (.notFound path)
    | .error .denied => .error (.denied path)
    | .error .invalidName => .error (.invalidFilename path)
    | .error (.device reason) => .error (.device path reason)

/-- The number of bytes. -/
def size (s : Source) : Nat := s.text.utf8ByteSize

/-- There is no byte. -/
def isEmpty (s : Source) : Bool := s.size == 0

/-- The number of bytes of the layout in memory: room for the source and one zero byte, in pieces
of 64 bytes. -/
def paddedSize (s : Source) : Nat := (s.size + 1 + 63) / 64 * 64

/-- The layout in memory. -/
def padded (s : Source) : ByteArray :=
  ⟨s.text.toUTF8.data ++ Array.replicate (s.paddedSize - s.size) 0⟩

/-- The text of a line, from 1. -/
def line? (s : Source) (number : Nat) : Option String := Text.line? s.text number

end Source

end Modula
