/-!
# Lines of a text

A text is cut behind each line feed. What follows the last line feed is a line of its own unless
it is empty, so the empty text has no line. The text of a line leaves out its line feed and one
carriage return before that; a carriage return at the very end of a text belongs to the line.
-/

namespace Modula.Text

/-- Puts a character in front of a text that is cut into lines. -/
def consLine (c : Char) (lines : List (List Char)) : List (List Char) :=
  if c = '\n' then ['\n'] :: lines
  else
    match lines with
    | [] => [[c]]
    | first :: later => (c :: first) :: later

/-- A text cut into lines, each with its line feed. -/
def cutLines (text : List Char) : List (List Char) := text.foldr consLine []

/-- A line without its line feed and the carriage return before that. -/
def dropTerminator (line : List Char) : List Char :=
  match line.reverse with
  | '\n' :: '\r' :: front => front.reverse
  | '\n' :: front => front.reverse
  | _ => line

/-- The lines of a text, without their ends. -/
def lines (text : String) : List String :=
  (cutLines text.toList).map fun line => String.ofList (dropTerminator line)

/-- The number of lines. -/
def lineCount (text : String) : Nat := (cutLines text.toList).length

/-- The text of a line; lines are counted from 1. -/
def line? (text : String) (number : Nat) : Option String :=
  if number = 0 then none
  else (cutLines text.toList)[number - 1]?.map fun line => String.ofList (dropTerminator line)

theorem flatten_consLine (c : Char) (lines : List (List Char)) :
    (consLine c lines).flatten = c :: lines.flatten := by
  unfold consLine
  split
  · next h => simp [h]
  · cases lines <;> simp

/-- Cutting loses nothing. -/
theorem flatten_cutLines (text : List Char) : (cutLines text).flatten = text := by
  induction text with
  | nil => rfl
  | cons c text ih => exact (flatten_consLine c (cutLines text)).trans (congrArg (c :: ·) ih)

end Modula.Text
