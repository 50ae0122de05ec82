import Modula.Text.Position
import Modula.Token

/-!
# Symbols

A symbol is a token where it stands in a source, with the text it stands for. The text of some
tokens is settled by the token; for the others it is called the lexeme.
-/

namespace Modula

/-- The lexical modes, fixed while a source is read. -/
structure LexicalOptions where
  /-- Identifiers may hold dollar signs. -/
  dollar : Bool := false
  /-- Identifiers may hold low lines. -/
  lowline : Bool := false
  /-- Comments are symbols and not blanks. -/
  comments : Bool := false
deriving DecidableEq, Repr

namespace LexicalOptions

/-- A character that may separate the parts of an identifier in these modes. -/
def allowsSeparator (o : LexicalOptions) (c : Char) : Bool :=
  (c = '_' && o.lowline) || (c = '$' && o.dollar)

/-- The modes as the bits of a number. -/
def flags (o : LexicalOptions) : Nat :=
  o.dollar.toNat + 2 * o.lowline.toNat + 4 * o.comments.toNat

end LexicalOptions

/-- A token of a source. -/
structure Symbol where
  token : Token
  /-- The characters of the source it stands for. -/
  text : String
  /-- Where these characters start. -/
  position : Position
deriving DecidableEq, Repr

namespace Symbol

/-- What stands in front of the first symbol of a source: no symbol, and nowhere. -/
def none : Symbol := ⟨.unknown, "", ⟨0, 0, 0⟩⟩

instance : Inhabited Symbol := ⟨none⟩

/-- The line, from 1. -/
def line (s : Symbol) : Nat := s.position.line

/-- The byte column, from 1. -/
def column (s : Symbol) : Nat := s.position.column

/-- The text, where the token alone does not settle it. -/
def lexeme? (s : Symbol) : Option String := if s.token.hasLexeme then some s.text else .none

end Symbol

end Modula
