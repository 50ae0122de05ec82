import Modula.Diagnostic.Code
import Modula.Text.Position
import Modula.Text.Printable
import Modula.TokenSet

/-!
# Diagnostics

A diagnostic is plain data: where a fault is, what it is, and what was known about it when it was
found. Its wording is composed only when it is printed.
-/

namespace Modula

/-- What would have been right instead. -/
inductive Expected where
  /-- This token. -/
  | token (t : Token)
  /-- Any of these tokens. -/
  | set (s : TokenSet)
  /-- An identifier spelled exactly so. -/
  | name (text : String)
deriving DecidableEq

/-- The wording of an expectation. -/
def Expected.phrase : Expected → String
  | token t => t.describe
  | set s => s.phrase
  | name text => s!"`{text}`"

/-- A fault of a source. -/
structure Diagnostic where
  severity : Severity
  code : Code
  /-- The line, from 1. -/
  line : Nat
  /-- The byte column, from 1. -/
  column : Nat
  /-- The character at fault. -/
  char : Option Char := none
  /-- The token that was found. -/
  found : Option Token := none
  /-- The text of the symbol at fault. -/
  lexeme : Option String := none
  expected : Option Expected := none
deriving DecidableEq

namespace Diagnostic

/-- A fault of the usual severity about which nothing more is known. -/
def new (code : Code) (line column : Nat) : Diagnostic :=
  { severity := code.severity, code, line, column }

/-- A fault of the usual severity at a position of the source. -/
def ofPosition (code : Code) (p : Position) : Diagnostic := new code p.line p.column

/-- The stage that found the fault. -/
def phase (d : Diagnostic) : Phase := d.code.phase

/-- The fault is graver than a warning. -/
def isError (d : Diagnostic) : Bool := d.severity.isError

/-- The wording of what was found. -/
def foundPhrase (d : Diagnostic) : String :=
  match d.lexeme, d.found with
  | some lexeme, some token => s!"{token.describe} `{lexeme}`"
  | none, some token => token.describe
  | some lexeme, none => s!"`{lexeme}`"
  | none, none => "symbol"

/-- The wording of the fault. -/
def message (d : Diagnostic) : String :=
  let plain := d.code.description
  match d.code with
  | .illegalCharacter | .controlCharacter =>
    match d.char with
    | some c => plain ++ " '" ++ Text.escaped c ++ "'"
    | none => plain
  | .invalidEscape =>
    match d.char with
    | some c => plain ++ " '\\" ++ Text.escaped c ++ "'"
    | none => plain
  | .unexpectedSymbol =>
    match d.expected with
    | some e => s!"unexpected {d.foundPhrase}, expected {e.phrase}"
    | none => s!"unexpected {d.foundPhrase}"
  | .closingMismatch =>
    match d.lexeme, d.expected with
    | some closing, some e => s!"closing identifier `{closing}` does not match {e.phrase}"
    | _, _ => plain
  | .errantSemicolon =>
    match d.found with
    | some token => s!"semicolon before {token.describe}"
    | none => plain
  | .invalidStart =>
    match d.expected with
    | some e => s!"{plain}: found {d.foundPhrase}, expected {e.phrase}"
    | none => plain
  | _ =>
    match d.lexeme, d.phase with
    | some lexeme, .lexical => s!"{plain} `{lexeme}`"
    | _, _ => plain

/-- The fault on one line: position, severity, code and wording. -/
def text (d : Diagnostic) : String :=
  s!"{d.line}:{d.column}: {d.severity.name}[{d.code.name}]: {d.message}"

instance : ToString Diagnostic := ⟨text⟩

end Diagnostic

end Modula
