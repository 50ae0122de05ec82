import Modula.Diagnostic.Terminal
import Modula.Grammar.Options

/-!
# The command line

Arguments are switches, which start with a dash, and files. A double dash ends the switches: all
arguments behind it are files. The first argument that is in error decides.
-/

namespace Modula

/-- What is done with each file. -/
inductive Mode where
  /-- Report its faults. -/
  | check
  /-- Print its tree as well. -/
  | ast
  /-- Print its symbols instead. -/
  | tokens
deriving DecidableEq, Repr

/-- What a command line asks for. -/
structure CommandLine where
  files : List String := []
  /-- The kind of all files; otherwise their names tell it. -/
  kind : Option UnitKind := none
  options : ParseOptions := {}
  mode : Mode := .check
  color : ColorMode := .auto
  /-- Print the lines at fault, and counts. -/
  verbose : Bool := false
deriving DecidableEq, Repr

/-- What is wrong with a command line. -/
inductive UsageError where
  /-- Only help was asked for. -/
  | help
  | noInput
  | unknownOption (argument : String)
  | invalidValue (option value : String)
  | conflictingKinds
deriving DecidableEq, Repr

/-- The wording of the error. -/
def UsageError.message : UsageError → String
  | help => "help requested"
  | noInput => "no input files"
  | unknownOption argument => s!"unknown option '{argument}'"
  | invalidValue option value => s!"invalid value '{value}' for {option}"
  | conflictingKinds => "--def and --mod are mutually exclusive"

namespace CommandLine

/-- The help text. -/
def usage : String :=
  "\n".intercalate
    ["Usage: m2c [options] <file>...",
     "",
     "Options:",
     "  --def                    Accept only definition modules",
     "  --mod                    Accept only implementation and program modules",
     "  --dollar-ids             Allow '$' inside identifiers",
     "  --lowline-ids            Allow '_' inside identifiers",
     "  --preserve-comments      Keep comments as trivia",
     "  --errant-semicolon=<s>   Severity of a ';' before a closing symbol: warn, error",
     "  --extensible-records     Use extensible record syntax instead of variant records",
     "  --max-nesting=<n>        Deepest allowed nesting (default: 256)",
     "  --color=<when>           auto, always, never",
     "  --tokens                 Print the symbol stream instead of parsing",
     "  --ast                    Print the syntax tree of each file",
     "  -v, --verbose            Echo source lines under diagnostics, print statistics",
     "  -h, --help               Show this message"]

/-- The value of some decimal digits. -/
def digitsValue? (digits : List Char) : Option Nat :=
  if digits.isEmpty || !digits.all Char.isDigit then none
  else some (digits.foldl (fun n c => 10 * n + (c.toNat - '0'.toNat)) 0)

/-- The value of a number of at most 32 bits. A plus sign and leading zeros are allowed. -/
def numeral? (text : String) : Option Nat :=
  let digits := match text.toList with
    | '+' :: digits => digits
    | digits => digits
  (digitsValue? digits).filter (· < Nat.pow 2 32)

/-- A switch and its value, cut at the first equals sign. -/
def cutValue? (argument : String) : Option (String × String) :=
  let cs := argument.toList
  let name := cs.takeWhile (· != '=')
  match cs.drop name.length with
  | [] => none
  | _ :: value => some (String.ofList name, String.ofList value)

/-- Asks for units of one kind; the other kind must not have been asked for. -/
def withKind (c : CommandLine) (kind : UnitKind) : Except UsageError CommandLine :=
  match c.kind with
  | none => .ok { c with kind }
  | some earlier => if earlier = kind then .ok c else .error .conflictingKinds

/-- A switch with a value. -/
def valued (c : CommandLine) (argument : String) : Except UsageError CommandLine :=
  match cutValue? argument with
  | none => .error (.unknownOption argument)
  | some (name, value) =>
    match name with
    | "--errant-semicolon" =>
      match value with
      | "warn" | "warning" => .ok { c with options.errantSemicolon := .warning }
      | "error" => .ok { c with options.errantSemicolon := .error }
      | _ => .error (.invalidValue name value)
    | "--max-nesting" =>
      match numeral? value with
      | some (limit + 1) => .ok { c with options.maxNesting := limit + 1 }
      | _ => .error (.invalidValue name value)
    | "--color" =>
      match value with
      | "auto" => .ok { c with color := .auto }
      | "always" => .ok { c with color := .always }
      | "never" => .ok { c with color := .never }
      | _ => .error (.invalidValue name value)
    | _ => .error (.unknownOption argument)

/-- One switch. -/
def switch (c : CommandLine) (argument : String) : Except UsageError CommandLine :=
  match argument with
  | "-h" | "--help" => .error .help
  | "--def" => c.withKind .definition
  | "--mod" => c.withKind .program
  | "--dollar-ids" => .ok { c with options.lexical.dollar := true }
  | "--lowline-ids" => .ok { c with options.lexical.lowline := true }
  | "--preserve-comments" => .ok { c with options.lexical.comments := true }
  | "--extensible-records" => .ok { c with options.records := .extensible }
  | "--tokens" => .ok { c with mode := .tokens }
  | "--ast" => .ok { c with mode := .ast }
  | "-v" | "--verbose" => .ok { c with verbose := true }
  | _ => c.valued argument

/-- The argument is a switch and not a file. -/
def isSwitch (argument : String) : Bool := argument.toList.head? == some '-'

/-- Reads arguments on top of what earlier ones asked for. -/
def readOnto (c : CommandLine) : List String → Except UsageError CommandLine
  | [] => .ok c
  | argument :: later =>
    if argument = "--" then .ok { c with files := c.files ++ later }
    else if isSwitch argument then
      match c.switch argument with
      | .error e => .error e
      | .ok c => c.readOnto later
    else { c with files := c.files ++ [argument] }.readOnto later

/-- What a command line asks for. -/
def read (arguments : List String) : Except UsageError CommandLine :=
  match readOnto {} arguments with
  | .error e => .error e
  | .ok c => if c.files.isEmpty then .error .noInput else .ok c

end CommandLine

end Modula
