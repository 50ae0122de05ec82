import Modula.Grammar.CompilationUnit
import Modula.Text.Lines

/-!
# Parsing a source

A parse of a source answers with a tree, however many faults were recovered from, or fails for one
of two reasons: the source does not start like a compilation unit, or it is nested too deep. Either
way the faults and counts so far are part of the answer.
-/

namespace Modula

/-- A parsed compilation unit. -/
structure ParseOutput where
  tree : Node
  /-- The lexemes that were read. -/
  table : Interner
  stats : Statistics
  reports : List Diagnostic
  /-- Comments and pragmas, in the order of the source. -/
  trivia : List Symbol

/-- A compilation unit without a tree. -/
structure ParseFailure where
  failure : Failure
  stats : Statistics
  reports : List Diagnostic

namespace ParseOutput

/-- The tree as an S-expression. -/
def sexpr (out : ParseOutput) : String := (out.tree.map Symbol.text).sexpr

/-- Something graver than a warning was reported. -/
def hasErrors (out : ParseOutput) : Bool := 0 < out.stats.errors

end ParseOutput

/-- Reads a unit from the items of its source. -/
def readUnit (o : ParseOptions) (kind : UnitKind) (items : List Item) :
    Except Stop Node × Progress :=
  (Grammar.compilationUnit o kind).run (Progress.start items)

/-- The failure of a reading that has stopped. No repetition of the grammar is endless, so that it
makes no difference what is answered for one. -/
def Stop.failure : Stop → Failure
  | failed f => f
  | endless => .invalidStart

/-- Parses the text of a compilation unit. -/
def parse (o : ParseOptions) (kind : UnitKind) (text : String) :
    Except ParseFailure ParseOutput :=
  let (result, progress) := readUnit o kind (Item.ofStream (Scanned.stream o.lexical text))
  let stats := { progress.queue.stats with lines := Text.lineCount text }
  let reports := progress.queue.toList
  match result with
  | .ok tree =>
    .ok
      { tree
        table := progress.table
        stats
        reports
        trivia := progress.trivia.toList }
  | .error stop => .error { failure := stop.failure, stats, reports }

end Modula
