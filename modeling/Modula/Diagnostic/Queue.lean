import Modula.Diagnostic.Basic

/-!
# Counting diagnostics

The diagnostics of a compilation unit are recorded in one queue, which counts them by phase and
severity as they come, beside the counts of declarations, procedures, statements and lines.
-/

namespace Modula

/-- The counts of one compilation unit, or of several together. -/
structure Statistics where
  declarations : Nat := 0
  procedures : Nat := 0
  statements : Nat := 0
  lexicalWarnings : Nat := 0
  lexicalErrors : Nat := 0
  syntaxWarnings : Nat := 0
  syntaxErrors : Nat := 0
  semanticWarnings : Nat := 0
  semanticErrors : Nat := 0
  lines : Nat := 0
deriving DecidableEq, Repr

namespace Statistics

/-- The highest number a counter of diagnostics shows. -/
def counterLimit : Nat := Nat.pow 2 32 - 1

/-- One more, up to the limit. -/
def bump (n : Nat) : Nat := min (n + 1) counterLimit

/-- The counts with one more diagnostic. -/
def record (s : Statistics) (d : Diagnostic) : Statistics :=
  match d.phase, d.isError with
  | .lexical, false => { s with lexicalWarnings := bump s.lexicalWarnings }
  | .lexical, true => { s with lexicalErrors := bump s.lexicalErrors }
  | .syntactic, false => { s with syntaxWarnings := bump s.syntaxWarnings }
  | .syntactic, true => { s with syntaxErrors := bump s.syntaxErrors }
  | .semantic, false => { s with semanticWarnings := bump s.semanticWarnings }
  | .semantic, true => { s with semanticErrors := bump s.semanticErrors }

/-- The number of errors of all phases. -/
def errors (s : Statistics) : Nat := s.lexicalErrors + s.syntaxErrors + s.semanticErrors

/-- The number of warnings of all phases. -/
def warnings (s : Statistics) : Nat := s.lexicalWarnings + s.syntaxWarnings + s.semanticWarnings

/-- The counts of two units together. -/
def merge (s t : Statistics) : Statistics where
  declarations := s.declarations + t.declarations
  procedures := s.procedures + t.procedures
  statements := s.statements + t.statements
  lexicalWarnings := s.lexicalWarnings + t.lexicalWarnings
  lexicalErrors := s.lexicalErrors + t.lexicalErrors
  syntaxWarnings := s.syntaxWarnings + t.syntaxWarnings
  syntaxErrors := s.syntaxErrors + t.syntaxErrors
  semanticWarnings := s.semanticWarnings + t.semanticWarnings
  semanticErrors := s.semanticErrors + t.semanticErrors
  lines := s.lines + t.lines

end Statistics

/-- Diagnostics in the order they were found, with the counts so far. -/
structure Queue where
  entries : Array Diagnostic := #[]
  stats : Statistics := {}

namespace Queue

instance : Inhabited Queue := ⟨{}⟩

/-- The queue with one more diagnostic. -/
def push (q : Queue) (d : Diagnostic) : Queue where
  entries := q.entries.push d
  stats := q.stats.record d

/-- The queue with more diagnostics, in their order. -/
def append (q : Queue) (ds : List Diagnostic) : Queue := ds.foldl push q

/-- The recorded diagnostics. -/
def toList (q : Queue) : List Diagnostic := q.entries.toList

/-- Something graver than a warning was counted. -/
def hasErrors (q : Queue) : Bool := 0 < q.stats.errors

@[simp]
theorem toList_push (q : Queue) (d : Diagnostic) : (q.push d).toList = q.toList ++ [d] := by
  simp [toList, push]

@[simp]
theorem toList_append (q : Queue) (ds : List Diagnostic) :
    (q.append ds).toList = q.toList ++ ds := by
  induction ds generalizing q with
  | nil => simp [append]
  | cons d ds ih => exact (ih (q.push d)).trans (by simp)

@[simp]
theorem stats_push (q : Queue) (d : Diagnostic) : (q.push d).stats = q.stats.record d := rfl

@[simp]
theorem stats_append (q : Queue) (ds : List Diagnostic) :
    (q.append ds).stats = ds.foldl Statistics.record q.stats := by
  induction ds generalizing q with
  | nil => rfl
  | cons d ds ih => exact ih (q.push d)

end Queue

end Modula
