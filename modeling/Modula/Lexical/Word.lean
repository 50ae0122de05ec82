import Modula.Lexical.Reading
import Modula.Lexical.Symbol

/-!
# Words

A word is a run of letters, digits and the separators that the lexical modes allow. A separator
must stand between two letters or digits. A word of capital letters alone is a reserved word if it
is spelled like one; any other well-formed word is an identifier, a foreign one if it holds a
separator.
-/

namespace Modula.Word

/-- A character that continues a word. -/
def continues (o : LexicalOptions) (c : Char) : Bool := c.isAlphanum || o.allowsSeparator c

/-- Every separator stands between two other characters, given whether a separator may come
next. -/
def isSpaced (separator : Char → Bool) : Bool → List Char → Bool
  | mayCome, [] => mayCome
  | mayCome, c :: cs =>
    if separator c then mayCome && isSpaced separator false cs else isSpaced separator true cs

/-- The token of a word. -/
def classify (o : LexicalOptions) (word : List Char) : Token :=
  if !isSpaced o.allowsSeparator false word then .malformedIdent
  else if word.all Char.isUpper then
    (Token.reservedWord? (String.ofList word)).getD .stdIdent
  else if word.any o.allowsSeparator then .foreignIdent
  else .stdIdent

/-- Reads the word that starts with `c`. -/
def read (o : LexicalOptions) (p : Position) (c : Char) (rest : List Char) : Reading :=
  let word := c :: rest.takeWhile (continues o)
  let token := classify o word
  { token
    length := word.length
    reports :=
      if token = .malformedIdent then
        [{ Diagnostic.ofPosition .malformedIdentifier p with lexeme := String.ofList word }]
      else []
    length_pos := Nat.succ_pos _ }

end Modula.Word
