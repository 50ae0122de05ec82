/-!
# Positions in a text

A position counts the bytes from the start of the text and gives the line and the column, both
from 1. A column counts bytes too, from the start of its line. A line ends with a line feed.
-/

namespace Modula

/-- A place between two characters of a text. -/
structure Position where
  offset : Nat
  line : Nat
  column : Nat
deriving DecidableEq, Repr

namespace Position

/-- The start of a text. -/
def start : Position := ⟨0, 1, 1⟩

/-- The position behind a character. -/
def next (p : Position) (c : Char) : Position :=
  if c = '\n' then ⟨p.offset + 1, p.line + 1, 1⟩
  else ⟨p.offset + c.utf8Size, p.line, p.column + c.utf8Size⟩

/-- The position behind a text. -/
def after (p : Position) (text : List Char) : Position := text.foldl next p

@[simp]
theorem after_nil (p : Position) : p.after [] = p := rfl

@[simp]
theorem after_cons (p : Position) (c : Char) (text : List Char) :
    p.after (c :: text) = (p.next c).after text := rfl

theorem after_append (p : Position) (a b : List Char) :
    p.after (a ++ b) = (p.after a).after b := List.foldl_append

end Position

end Modula
