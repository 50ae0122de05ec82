import Modula.Diagnostic.Code
import Modula.Lexical.Symbol

/-!
# Options of a parse
-/

namespace Modula

/-- Which compilation units are accepted. -/
inductive UnitKind where
  /-- Units of every kind. -/
  | any
  /-- Definition modules. -/
  | definition
  /-- Implementation modules and program modules. -/
  | program
deriving DecidableEq, Repr

/-- The form of record types. -/
inductive RecordGrammar where
  /-- Records may have variants. -/
  | variant
  /-- Records may extend another record and have no variants. -/
  | extensible
deriving DecidableEq, Repr

/-- The limit on nesting unless something else is configured. -/
def defaultMaxNesting : Nat := 256

/-- What can be chosen for a parse. -/
structure ParseOptions where
  lexical : LexicalOptions := {}
  /-- How grave a semicolon in front of a closing symbol is. -/
  errantSemicolon : Severity := .warning
  records : RecordGrammar := .variant
  /-- How deep expressions, statements, types and procedures may be nested. -/
  maxNesting : Nat := defaultMaxNesting
deriving DecidableEq, Repr

end Modula
