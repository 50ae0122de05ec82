/-!
# Reading bytes as text

Bytes are read as UTF-8. Where they are no UTF-8, the longest run of bytes that still begins some
character, or else one byte, is replaced by the character U+FFFD, and reading goes on behind it.
-/

namespace Modula.Text

/-- A character of which some bytes are still to come. -/
structure Unfinished where
  /-- The least value of the next byte. -/
  low : Nat
  /-- The greatest value of the next byte. -/
  high : Nat
  /-- How many bytes come after the next one. -/
  later : Nat
  /-- The bits read so far. -/
  bits : Nat
deriving DecidableEq, Repr

/-- What a byte does where a character begins. -/
inductive LeadByte where
  | whole (c : Char)
  | begins (u : Unfinished)
  | invalid
deriving DecidableEq, Repr

/-- The role of a byte where a character begins. The ranges leave out encodings that are longer
than need be, surrogates, and values beyond the last code point. -/
def LeadByte.ofByte (b : Nat) : LeadByte :=
  if b < 0x80 then whole (Char.ofNat b)
  else if 0xC2 ≤ b ∧ b ≤ 0xDF then begins ⟨0x80, 0xBF, 0, b - 0xC0⟩
  else if b = 0xE0 then begins ⟨0xA0, 0xBF, 1, 0⟩
  else if b = 0xED then begins ⟨0x80, 0x9F, 1, 0xD⟩
  else if 0xE1 ≤ b ∧ b ≤ 0xEF then begins ⟨0x80, 0xBF, 1, b - 0xE0⟩
  else if b = 0xF0 then begins ⟨0x90, 0xBF, 2, 0⟩
  else if b = 0xF4 then begins ⟨0x80, 0x8F, 2, 4⟩
  else if 0xF1 ≤ b ∧ b ≤ 0xF3 then begins ⟨0x80, 0xBF, 2, b - 0xF0⟩
  else invalid

/-- The character that stands for bytes that are no text. -/
def replacement : Char := Char.ofNat 0xFFFD

/-- A text that is being read from bytes. -/
structure Decoding where
  /-- The characters read so far, the last one first. -/
  done : List Char := []
  unfinished : Option Unfinished := none
deriving DecidableEq, Repr

namespace Decoding

/-- Reads a byte where a character begins. -/
def lead (done : List Char) (b : Nat) : Decoding :=
  match LeadByte.ofByte b with
  | .whole c => { done := c :: done }
  | .begins u => { done, unfinished := some u }
  | .invalid => { done := replacement :: done }

/-- Reads one more byte. -/
def feed (d : Decoding) (byte : UInt8) : Decoding :=
  let b := byte.toNat
  match d.unfinished with
  | none => lead d.done b
  | some u =>
    if u.low ≤ b ∧ b ≤ u.high then
      let bits := u.bits * 64 + b % 64
      match u.later with
      | 0 => { done := Char.ofNat bits :: d.done }
      | later + 1 => { d with unfinished := some ⟨0x80, 0xBF, later, bits⟩ }
    else lead (replacement :: d.done) b

/-- The text when there are no more bytes. -/
def finish (d : Decoding) : List Char :=
  match d.unfinished with
  | none => d.done.reverse
  | some _ => (replacement :: d.done).reverse

end Decoding

/-- The text of some bytes, with replacements where they are no UTF-8. -/
def decode (bytes : List UInt8) : List Char := (bytes.foldl Decoding.feed {}).finish

/-- The text of the bytes of a file, with replacements where they are no UTF-8. -/
def ofBytes (bytes : ByteArray) : String := String.ofList (decode bytes.data.toList)

/-- The text of the bytes of a file, if they are UTF-8 throughout. -/
def ofValidBytes? (bytes : ByteArray) : Option String := String.fromUTF8? bytes

end Modula.Text
