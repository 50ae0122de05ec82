import Modula.Diagnostic.Basic
import Modula.Text.Lines

/-!
# Diagnostics on a terminal

A diagnostic is printed as `origin:line:column: severity[CODE]: message`, where the origin is
usually a path. When the source is at hand, the line at fault follows with a caret under the
column. Parts of the output can be painted with escape sequences; these are decoration around the
same text.
-/

namespace Modula

/-- When output is painted. -/
inductive ColorMode where
  /-- Only on a terminal. -/
  | auto
  | always
  | never
deriving DecidableEq, Repr

/-- The output is painted, given whether it goes to a terminal. -/
def ColorMode.paints : ColorMode → Bool → Bool
  | always, _ => true
  | auto, isTerminal => isTerminal
  | never, _ => false

/-- A way of painting a piece of text. -/
inductive Paint where
  | fatal | error | warning | emphasis | caret
deriving DecidableEq, Repr

namespace Paint

/-- The sequence that switches the paint on. -/
def sequence : Paint → String
  | fatal => "\x1b[1;35m"
  | error => "\x1b[1;31m"
  | warning => "\x1b[1;33m"
  | emphasis => "\x1b[1m"
  | caret => "\x1b[1;32m"

/-- The sequence that switches every paint off. -/
def reset : String := "\x1b[0m"

/-- The paint of a severity. -/
def ofSeverity : Severity → Paint
  | .fatal => fatal
  | .error => error
  | .warning => warning

end Paint

/-- How diagnostics are printed. -/
structure Terminal where
  /-- Escape sequences are written. -/
  painted : Bool := false
  /-- Printed in front of each position. -/
  origin : Option String := none
  /-- The source whose lines are shown. -/
  echo : Option String := none

namespace Terminal

/-- A piece of text in a paint. -/
def paint (t : Terminal) (p : Paint) (text : String) : String :=
  if t.painted then p.sequence ++ text ++ Paint.reset else text

/-- What moves a caret under the column: one blank for each character in front of it, but a tab
for a tab, which moves both lines alike. -/
def indent (line : String) (column : Nat) : String :=
  String.ofList ((line.toList.take (column - 1)).map fun c => if c = '\t' then '\t' else ' ')

/-- The line at fault with a caret below it; nothing when there is no such line at hand. -/
def echoLine (t : Terminal) (line column : Nat) : String :=
  match t.echo.bind (Text.line? · line) with
  | none => ""
  | some text => s!"  {text}\n  {indent text column}" ++ t.paint .caret "^" ++ "\n"

/-- The origin, if any, in front of a position. -/
def originText (t : Terminal) : String :=
  match t.origin with
  | none => ""
  | some origin => t.paint .emphasis origin ++ ":"

/-- The text of one diagnostic. -/
def render (t : Terminal) (d : Diagnostic) : String :=
  t.originText ++ s!"{d.line}:{d.column}: "
    ++ t.paint (.ofSeverity d.severity) d.severity.name
    ++ t.paint .emphasis s!"[{d.code.name}]"
    ++ s!": {d.message}\n"
    ++ t.echoLine d.line d.column

/-- The text of diagnostics in their order. -/
def renderAll (t : Terminal) (ds : List Diagnostic) : String := String.join (ds.map t.render)

/-- A number of things. -/
def counted (n : Nat) (noun : String) : String :=
  if n = 1 then s!"1 {noun}" else s!"{n} {noun}s"

/-- The last line of a run: how many errors and warnings there were, if any. -/
def summary (t : Terminal) (errors warnings : Nat) : String :=
  match errors, warnings with
  | 0, 0 => ""
  | 0, w => t.paint .warning "warning" ++ ": " ++ counted w "warning" ++ " emitted\n"
  | e, w =>
    let abort := if e = 1 then "aborting due to previous error"
      else s!"aborting due to {e} previous errors"
    let more := if 0 < w then "; " ++ counted w "warning" ++ " emitted" else ""
    t.paint .error "error" ++ s!": {abort}{more}\n"

end Terminal

end Modula
