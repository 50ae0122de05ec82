import Modula.Interner
import Modula.Lexical.Chunk

/-!
# The stream of symbols

The chunks of a source that are symbols, in order, closed by the symbol for the end of the source.
Each comes with the faults that were found since the symbol before it. Comments count as blanks
unless the lexical modes keep them; their faults are kept in any case.
-/

namespace Modula

/-- A symbol with the faults found since the symbol before. -/
structure Scanned where
  symbol : Symbol
  reports : List Diagnostic
deriving DecidableEq

instance : Inhabited Scanned := ⟨⟨default, []⟩⟩

namespace Scanned

/-- The symbols with more faults in front of the first. -/
def delay (reports : List Diagnostic) : List Scanned → List Scanned
  | [] => []
  | s :: later => { s with reports := reports ++ s.reports } :: later

/-- The token of a chunk that the stream keeps. -/
def keptToken? (o : LexicalOptions) (k : Chunk) : Option Token :=
  k.token?.filter fun t => o.comments || !t.isComment

/-- Puts a chunk in front of the symbols behind it. -/
def consChunk (o : LexicalOptions) (k : Chunk) (later : List Scanned) : List Scanned :=
  match keptToken? o k with
  | some token => ⟨⟨token, String.ofList k.text, k.position⟩, k.reports⟩ :: later
  | none => delay k.reports later

/-- The symbol for the end of a source. -/
def endOf (text : List Char) : Scanned :=
  ⟨⟨.endOfFile, "", Position.start.after text⟩, []⟩

/-- The symbols of a text. -/
def stream (o : LexicalOptions) (text : String) : List Scanned :=
  (Chunk.cut o .start text.toList).foldr (consChunk o) [endOf text.toList]

end Scanned

/-- The strings that reading a row of symbols adds to a table, in order. -/
def lexemes (symbols : List Symbol) : List String := symbols.filterMap Symbol.lexeme?

/-- All that the lexical rules say about a text. -/
structure Tokenized where
  symbols : List Symbol
  table : Interner
  reports : List Diagnostic

/-- The symbols of a text, the last one being its end, the table of their lexemes, and the faults
of the text. -/
def tokenize (o : LexicalOptions) (text : String) : Tokenized :=
  let stream := Scanned.stream o text
  let symbols := stream.map Scanned.symbol
  { symbols
    table := Interner.new.internAll (lexemes symbols)
    reports := stream.flatMap Scanned.reports }

/-- The handle of a symbol's lexeme in a table that holds it. -/
def Interner.handleOf? (table : Interner) (s : Symbol) : Option Handle := s.lexeme?.bind table.get?

/-- The symbols one to a line: position, token and text. -/
def Tokenized.listing (t : Tokenized) : String :=
  String.join <| t.symbols.map fun s =>
    if s.text.isEmpty then s!"{s.line}:{s.column}\t{s.token}\n"
    else s!"{s.line}:{s.column}\t{s.token}\t{s.text}\n"

end Modula
