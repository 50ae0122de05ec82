import Modula.CommandLine
import Modula.Parse
import Modula.Source.Basic

/-!
# Running the checker

What a command line asks for is done file by file, in the order of the command line. The listings
and trees go to the output, the diagnostics to the log, which a summary of all files closes.

Files whose symbols are listed are read and listed one after the other, and the totals are kept
up with every diagnostic. Files that are parsed are all parsed first; then the results are told of
one after the other, and the counts of each are added to the totals.
-/

namespace Modula

/-- What has been written so far, and the totals. -/
structure Report where
  /-- Listings, trees and counts. -/
  output : String := ""
  /-- Diagnostics. -/
  log : String := ""
  stats : Statistics := {}
  /-- The number of files that could not be read or have no tree. -/
  failures : Nat := 0
deriving DecidableEq, Repr

namespace Report

instance : Inhabited Report := ⟨{}⟩

/-- Every file could be read and has a tree, and nothing graver than a warning was reported. -/
def succeeded (r : Report) : Bool := r.failures == 0 && r.stats.errors == 0

/-- The report with a file about which there is nothing more to tell. -/
def fail (r : Report) (path message : String) : Report :=
  { r with
    log := r.log ++ s!"{path}: fatal: {message}\n"
    failures := r.failures + 1 }

end Report

/-- What becomes of a file that is to be parsed. -/
inductive FileResult where
  /-- There is no source. -/
  | unread (e : SourceError)
  /-- There is no tree. -/
  | failed (e : ParseFailure)
  | parsed (out : ParseOutput)

namespace FileResult

/-- The counts of a file. -/
def stats : FileResult → Statistics
  | unread _ => {}
  | failed e => e.stats
  | parsed out => out.stats

/-- The diagnostics of a file. -/
def reports : FileResult → List Diagnostic
  | unread _ => []
  | failed e => e.reports
  | parsed out => out.reports

end FileResult

/-- The kind of unit in a file: the kind that is asked for, or else what the name tells. -/
def unitKind (path : String) (forced : Option UnitKind) : UnitKind :=
  match forced with
  | some kind => kind
  | none =>
    match Path.extension? path with
    | some "def" => .definition
    | some "mod" => .program
    | _ => .any

namespace CommandLine

/-- The counts of a file on one line. -/
def statsLine (path : String) (s : Statistics) : String :=
  s!"{path}: {s.lines} lines, {s.declarations} declarations, {s.procedures} procedures, " ++
    s!"{s.statements} statements, {s.errors} errors, {s.warnings} warnings\n"

variable (c : CommandLine) (isTerminal : Bool) (read : FileReader)

/-- How the diagnostics of a file are printed. -/
def terminal (path : String) (echo : Option String) : Terminal where
  painted := c.color.paints isTerminal
  origin := some path
  echo := echo

/-- Lists the symbols of a file. -/
def listFile (r : Report) (path : String) : Report :=
  match Source.ofPath read path with
  | .error e => r.fail path e.message
  | .ok source =>
    let tokenized := tokenize c.options.lexical source.text
    let echo := if c.verbose then some source.text else none
    { r with
      output := r.output ++ tokenized.listing
      log := r.log ++ (c.terminal isTerminal path echo).renderAll tokenized.reports
      stats := tokenized.reports.foldl Statistics.record r.stats }

/-- Parses a file. -/
def parseFile (path : String) : FileResult :=
  match Source.ofPath read path with
  | .error e => .unread e
  | .ok source =>
    match parse c.options (unitKind path c.kind) source.text with
    | .error e => .failed e
    | .ok out => .parsed out

/-- Parses all files. -/
def parseFiles : List (String × FileResult) :=
  c.files.map fun path => (path, c.parseFile read path)

/-- The text of a file for showing its lines. A file that is not text throughout is not shown. -/
def echoOf (path : String) : Option String :=
  if c.verbose then
    match read path with
    | .ok bytes => Text.ofValidBytes? bytes
    | .error _ => none
  else none

/-- What is printed of a tree: the tree if it is asked for, and the counts. -/
def treeText (path : String) (out : ParseOutput) : String :=
  (if c.mode = .ast then out.sexpr ++ "\n" else "") ++
    (if c.verbose then statsLine path out.stats else "")

/-- Tells of a file that was parsed. -/
def reportFile (r : Report) (file : String × FileResult) : Report :=
  let (path, result) := file
  let terminal := c.terminal isTerminal path (c.echoOf read path)
  let printed := { r with log := r.log ++ terminal.renderAll result.reports }
  let told :=
    match result with
    | .parsed out => { printed with output := printed.output ++ c.treeText path out }
    | .unread e => printed.fail path e.message
    | .failed e => printed.fail path e.failure.message
  { told with stats := told.stats.merge result.stats }

/-- The report on all files, but for its last line. -/
def pass : Report :=
  match c.mode with
  | .tokens => c.files.foldl (c.listFile isTerminal read) {}
  | .check | .ast => (c.parseFiles read).foldl (c.reportFile isTerminal read) {}

/-- The line that closes the log. -/
def summary (r : Report) : String :=
  { painted := c.color.paints isTerminal : Terminal }.summary r.stats.errors r.stats.warnings

/-- The report on all files. -/
def run : Report :=
  let report := c.pass isTerminal read
  { report with log := report.log ++ c.summary isTerminal report }

end CommandLine

end Modula
