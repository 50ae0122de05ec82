/-!
# Codes, phases and severities

Every fault a source can have, with the stage that finds it, how grave it is unless the user
decides otherwise, the code it is reported under and a short description.
-/

namespace Modula

/-- The stage of the compiler that finds a fault. -/
inductive Phase where
  | lexical | syntactic | semantic
deriving DecidableEq, Repr

/-- The name of a stage. -/
def Phase.name : Phase → String
  | lexical => "lexical"
  | syntactic => "syntax"
  | semantic => "semantic"

/-- How grave a fault is. A fatal fault ends the work on a compilation unit. -/
inductive Severity where
  | fatal | error | warning
deriving DecidableEq, Repr

namespace Severity

/-- The severity as it is printed. -/
def name : Severity → String
  | fatal => "fatal"
  | error => "error"
  | warning => "warning"

/-- Everything graver than a warning counts as an error. -/
def isError : Severity → Bool
  | fatal | error => true
  | warning => false

end Severity

/-- A kind of fault. -/
inductive Code where
  /-- A character that starts no symbol. -/
  | illegalCharacter
  /-- A quoted literal without its closing quote. -/
  | unterminatedQuoted
  /-- A block comment without its end. -/
  | unterminatedComment
  /-- A pragma without its end. -/
  | unterminatedPragma
  /-- A disabled code block without its end. -/
  | unterminatedDisabled
  /-- A backslash that starts no escape. -/
  | invalidEscape
  /-- A control character inside quotes. -/
  | controlCharacter
  /-- An apostrophe in a number without a digit behind it. -/
  | separatorWithoutDigit
  /-- A decimal point without a digit behind it. -/
  | pointWithoutDigit
  /-- An exponent without a digit. -/
  | exponentWithoutDigit
  /-- A word that starts like a number and is none. -/
  | malformedNumber
  /-- A word with a misplaced separator. -/
  | malformedIdentifier
  /-- A comment inside too many others. -/
  | commentTooDeep
  /-- A symbol the grammar does not allow where it stands. -/
  | unexpectedSymbol
  /-- A closing identifier that differs from the opening one. -/
  | closingMismatch
  /-- A semicolon in front of a closing symbol. -/
  | errantSemicolon
  /-- A statement sequence without statements. -/
  | emptyStatements
  /-- A field list sequence without fields. -/
  | emptyFields
  /-- An opaque type outside a definition module. -/
  | opaqueOutsideDefinition
  /-- Constructs inside too many others. -/
  | nestingTooDeep
  /-- A source that does not start like a compilation unit. -/
  | invalidStart
deriving DecidableEq, Repr

namespace Code

/-- Every code, in ascending order. -/
def all : List Code :=
  [.illegalCharacter, .unterminatedQuoted, .unterminatedComment, .unterminatedPragma,
   .unterminatedDisabled, .invalidEscape, .controlCharacter, .separatorWithoutDigit,
   .pointWithoutDigit, .exponentWithoutDigit, .malformedNumber, .malformedIdentifier,
   .commentTooDeep, .unexpectedSymbol, .closingMismatch, .errantSemicolon, .emptyStatements,
   .emptyFields, .opaqueOutsideDefinition, .nestingTooDeep, .invalidStart]

/-- The code as it is printed: the second digit tells the phase. -/
def name : Code → String
  | illegalCharacter => "E0101"
  | unterminatedQuoted => "E0102"
  | unterminatedComment => "E0103"
  | unterminatedPragma => "E0104"
  | unterminatedDisabled => "E0105"
  | invalidEscape => "E0106"
  | controlCharacter => "E0107"
  | separatorWithoutDigit => "E0108"
  | pointWithoutDigit => "E0109"
  | exponentWithoutDigit => "E0110"
  | malformedNumber => "E0111"
  | malformedIdentifier => "E0112"
  | commentTooDeep => "E0113"
  | unexpectedSymbol => "E0201"
  | closingMismatch => "E0202"
  | errantSemicolon => "E0203"
  | emptyStatements => "E0204"
  | emptyFields => "E0205"
  | opaqueOutsideDefinition => "E0206"
  | nestingTooDeep => "E0207"
  | invalidStart => "E0208"

/-- The code that is printed so. -/
def ofName? (text : String) : Option Code := all.find? fun c => c.name == text

/-- The stage that finds the fault. -/
def phase : Code → Phase
  | illegalCharacter | unterminatedQuoted | unterminatedComment | unterminatedPragma
  | unterminatedDisabled | invalidEscape | controlCharacter | separatorWithoutDigit
  | pointWithoutDigit | exponentWithoutDigit | malformedNumber | malformedIdentifier
  | commentTooDeep => .lexical
  | unexpectedSymbol | closingMismatch | errantSemicolon | emptyStatements | emptyFields
  | opaqueOutsideDefinition | nestingTooDeep | invalidStart => .syntactic

/-- How grave the fault is unless something else is configured. -/
def severity : Code → Severity
  | unterminatedDisabled | emptyStatements | emptyFields => .warning
  | nestingTooDeep | invalidStart => .fatal
  | _ => .error

/-- What a message says when nothing more is known. -/
def description : Code → String
  | illegalCharacter => "illegal character"
  | unterminatedQuoted => "unterminated quoted literal"
  | unterminatedComment => "unterminated block comment"
  | unterminatedPragma => "unterminated pragma"
  | unterminatedDisabled => "disabled code block not closed before end of file"
  | invalidEscape => "invalid escape sequence"
  | controlCharacter => "control character in quoted literal"
  | separatorWithoutDigit => "digit separator must be followed by a digit"
  | pointWithoutDigit => "decimal point must be followed by a digit"
  | exponentWithoutDigit => "exponent must contain at least one digit"
  | malformedNumber => "malformed number literal"
  | malformedIdentifier => "malformed identifier"
  | commentTooDeep => "block comment nesting limit exceeded"
  | unexpectedSymbol => "unexpected symbol"
  | closingMismatch => "closing identifier does not match"
  | errantSemicolon => "semicolon before closing symbol"
  | emptyStatements => "empty statement sequence"
  | emptyFields => "empty field list sequence"
  | opaqueOutsideDefinition => "OPAQUE is only permitted in definition modules"
  | nestingTooDeep => "nesting limit exceeded"
  | invalidStart => "invalid start of compilation unit"

end Code

end Modula
