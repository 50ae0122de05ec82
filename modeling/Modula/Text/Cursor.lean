/-!
# Byte cursors

A cursor stands between two bytes of a source and keeps the line it is in, from 1, and where that
line starts. Beyond the end of the source it reads zeros and does not move. A cursor is a value:
to come back to a place later is to keep the cursor of that place.
-/

namespace Modula

/-- A place in a source. -/
structure Cursor where
  bytes : ByteArray
  /-- The number of bytes in front of the cursor. -/
  pos : Nat := 0
  /-- The line, from 1. -/
  line : Nat := 1
  /-- The number of bytes in front of the line. -/
  lineStart : Nat := 0

namespace Cursor

/-- The cursor in front of a text. -/
def ofText (text : String) : Cursor := { bytes := text.toUTF8 }

/-- The byte at an offset from the start; 0 beyond the end. -/
def byteAt (c : Cursor) (i : Nat) : UInt8 := if h : i < c.bytes.size then c.bytes[i] else 0

/-- The byte behind the cursor. -/
def current (c : Cursor) : UInt8 := c.byteAt c.pos

/-- The byte after that. -/
def peek (c : Cursor) : UInt8 := c.byteAt (c.pos + 1)

/-- The byte after the next two. -/
def peekAfter (c : Cursor) : UInt8 := c.byteAt (c.pos + 2)

/-- There is no byte behind the cursor. -/
def isAtEnd (c : Cursor) : Bool := c.bytes.size ≤ c.pos

/-- The column, from 1, in bytes. -/
def column (c : Cursor) : Nat := c.pos - c.lineStart + 1

/-- The cursor stands in front of the first byte of a line. -/
def isAtLineStart (c : Cursor) : Bool := c.pos == c.lineStart

/-- Moves over one byte; a line feed starts a new line. -/
def advance (c : Cursor) : Cursor :=
  if c.isAtEnd then c
  else if c.current = 10 then
    { c with pos := c.pos + 1, line := c.line + 1, lineStart := c.pos + 1 }
  else { c with pos := c.pos + 1 }

/-- Moves over `n` bytes, or to the end. -/
def advanceBy : Nat → Cursor → Cursor
  | 0, c => c
  | n + 1, c => if c.isAtEnd then c else advanceBy n c.advance

/-- The number of bytes of a character, told by its first byte. -/
def widthOf (lead : UInt8) : Nat :=
  if 0xC0 ≤ lead ∧ lead ≤ 0xDF then 2
  else if 0xE0 ≤ lead ∧ lead ≤ 0xEF then 3
  else if 0xF0 ≤ lead ∧ lead ≤ 0xF7 then 4
  else 1

/-- Moves over one character. -/
def advanceChar (c : Cursor) : Cursor := c.advanceBy (widthOf c.current)

/-- The text between two offsets; empty when an offset falls inside a character. -/
def slice (c : Cursor) (first last : Nat) : String :=
  let last := min last c.bytes.size
  let first := min first last
  (String.fromUTF8? (c.bytes.extract first last)).getD ""

/-- The text from an offset to the cursor. -/
def sliceFrom (c : Cursor) (first : Nat) : String := c.slice first c.pos

/-- The character behind the cursor, if the cursor stands in front of one. -/
def char? (c : Cursor) : Option Char :=
  if c.isAtEnd then none else (c.slice c.pos (c.pos + widthOf c.current)).toList.head?

theorem bytes_advance (c : Cursor) : c.advance.bytes = c.bytes := by
  unfold advance; split
  · rfl
  · split <;> rfl

theorem pos_advance {c : Cursor} (h : c.isAtEnd = false) : c.advance.pos = c.pos + 1 := by
  unfold advance; rw [h]
  simp only [Bool.false_eq_true, if_false]
  split <;> rfl

/-- The number of bytes behind the cursor. -/
def remaining (c : Cursor) : Nat := c.bytes.size - c.pos

theorem remaining_advance {c : Cursor} (h : c.isAtEnd = false) :
    c.advance.remaining + 1 = c.remaining := by
  have hp : c.pos < c.bytes.size := by
    unfold isAtEnd at h
    exact Nat.lt_of_not_le (of_decide_eq_false h)
  unfold remaining
  rw [bytes_advance, pos_advance h]
  omega

/-- Moves over the bytes that satisfy the condition. -/
def advanceWhile (p : UInt8 → Bool) (c : Cursor) : Cursor :=
  if _h : c.isAtEnd = false ∧ p c.current = true then advanceWhile p c.advance else c
termination_by c.remaining
decreasing_by
  have := remaining_advance (by assumption : _ ∧ _).1
  omega

theorem remaining_advanceWhile_le (p : UInt8 → Bool) (c : Cursor) :
    (c.advanceWhile p).remaining ≤ c.remaining := by
  fun_induction advanceWhile p c with
  | case1 c h ih =>
    have := remaining_advance (by assumption : _ ∧ _).1
    omega
  | case2 => exact Nat.le_refl _

/-- A blank, a tab, a line feed, a carriage return or a form feed. -/
def isBlank (b : UInt8) : Bool := b = 32 || b = 9 || b = 10 || b = 13 || b = 12

/-- Moves over blanks. -/
def skipBlanks (c : Cursor) : Cursor := c.advanceWhile isBlank

/-- Moves in front of the next line feed, or to the end. -/
def toLineEnd (c : Cursor) : Cursor := c.advanceWhile (· != 10)

/-- Moves to the next line that starts with the two bytes and tells whether there is one; to the
end when there is none. The rest of the present line does not count. -/
def toLineStarting (first second : UInt8) (c : Cursor) : Bool × Cursor :=
  if _h : c.toLineEnd.isAtEnd = false then
    let next := c.toLineEnd.advance
    if next.current = first ∧ next.peek = second then (true, next)
    else next.toLineStarting first second
  else (false, c.toLineEnd)
termination_by c.remaining
decreasing_by
  have h1 := remaining_advance _h
  have h2 : c.toLineEnd.remaining ≤ c.remaining := remaining_advanceWhile_le _ c
  omega

end Cursor

end Modula
