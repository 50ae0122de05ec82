import Modula.Lexical.Reading

/-!
# Special symbols

Punctuation, delimiters and operators that are no words: of two symbols that a text starts with,
the longer one counts.
-/

namespace Modula.Special

/-- The special symbol that a text of one character spells. -/
def single? : Char → Option Token
  | '.' => some .dot
  | ',' => some .comma
  | ':' => some .colon
  | ';' => some .semicolon
  | '|' => some .bar
  | '(' => some .lParen
  | ')' => some .rParen
  | '[' => some .lBracket
  | ']' => some .rBracket
  | '{' => some .lBrace
  | '}' => some .rBrace
  | '=' => some .equal
  | '#' => some .notEqual
  | '<' => some .less
  | '>' => some .greater
  | '+' => some .plus
  | '-' => some .minus
  | '*' => some .asterisk
  | '/' => some .solidus
  | '^' => some .deref
  | _ => none

/-- The special symbol that two characters spell together. -/
def double? : Char → Char → Option Token
  | '.', '.' => some .dotDot
  | ':', '=' => some .assign
  | ':', ':' => some .typeConv
  | '<', '=' => some .lessOrEqual
  | '>', '=' => some .greaterOrEqual
  | '=', '=' => some .identity
  | _, _ => none

/-- Reads the special symbol that starts with `c`, if there is one. -/
def read? (c : Char) (rest : List Char) : Option Reading :=
  match rest.head?.bind (double? c) with
  | some token => some { token, length := 2, reports := [], length_pos := by decide }
  | none =>
    (single? c).map fun token => { token, length := 1, reports := [], length_pos := by decide }

end Modula.Special
