import Modula.Lexical.Stream
import Modula.Text.Lines

/-!
# A window on the stream of symbols

The window shows two symbols: the one that was read last and the one that comes next. Moving it
takes note of the lexeme that comes into view and of the faults found on the way. The last symbol
of the stream stays in view for ever.
-/

namespace Modula

/-- Two neighbouring symbols of a stream. -/
structure Window where
  /-- The symbol that was read last. -/
  current : Symbol
  /-- The symbol that comes next. -/
  lookahead : Symbol
  /-- The symbols behind the window. -/
  ahead : List Scanned
  /-- The lexemes that have come into view, among other strings. -/
  table : Interner
  /-- The faults that nobody has taken yet. -/
  pending : List Diagnostic
  options : LexicalOptions
  /-- The number of lines of the source. -/
  lineCount : Nat

namespace Window

/-- Adds the lexeme of a symbol to a table. -/
def note (table : Interner) (s : Symbol) : Interner :=
  match s.lexeme? with
  | some text => (table.intern text).2
  | none => table

/-- The window in front of a text: nothing has been read, and its first symbol comes next. -/
def ofText (o : LexicalOptions) (text : String) : Window :=
  let stream := Scanned.stream o text
  let first := stream.headD default
  { current := .none
    lookahead := first.symbol
    ahead := stream.tail
    table := note .new first.symbol
    pending := first.reports
    options := o
    lineCount := Text.lineCount text }

/-- Moves the window by one symbol. -/
def next (w : Window) : Window :=
  match w.ahead with
  | [] => { w with current := w.lookahead }
  | s :: ahead =>
    { w with
      current := w.lookahead
      lookahead := s.symbol
      ahead
      table := note w.table s.symbol
      pending := w.pending ++ s.reports }

/-- Adds a string to the table. -/
def intern (w : Window) (text : String) : Handle × Window :=
  let (name, table) := w.table.intern text
  (name, { w with table })

/-- Takes the faults found since they were last taken. -/
def takeReports (w : Window) : List Diagnostic × Window := (w.pending, { w with pending := [] })

end Window

end Modula
