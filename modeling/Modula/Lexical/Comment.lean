import Modula.Lexical.Reading

/-!
# Comments, pragmas and disabled code

A comment goes from `!` to the end of the line, or from `(*` to `*)`. The second form nests. Ten
levels are meant to be used; an eleventh is reported once, and deeper openers and closers are then
paired off as text, so that a comment ends where plain nesting ends it.

A pragma goes from `<*` to the next `*>`. Lines from one that starts with `?<` to the next one that
starts with `?>` are disabled code.
-/

namespace Modula.Comment

/-- How many levels of comments are meant to be used. -/
def maxNesting : Nat := 10

/-- How far a block comment goes. -/
structure Extent where
  /-- The number of characters. -/
  length : Nat
  /-- The comment has an end. -/
  closed : Bool
  /-- The number of characters in front of the opener that goes too deep. -/
  tooDeep : Option Nat
deriving DecidableEq, Repr

/-- The extent of a comment of which `n` characters have been read and `depth` levels are open.
Beyond these, `ignored` openers are waiting for their closers. -/
def extent (depth ignored n : Nat) (tooDeep : Option Nat) : List Char → Extent
  | '(' :: '*' :: cs =>
    if depth < maxNesting then extent (depth + 1) ignored (n + 2) tooDeep cs
    else extent depth (ignored + 1) (n + 2) (tooDeep <|> some n) cs
  | '*' :: ')' :: cs =>
    if 0 < ignored then extent depth (ignored - 1) (n + 2) tooDeep cs
    else if depth ≤ 1 then ⟨n + 2, true, tooDeep⟩
    else extent (depth - 1) ignored (n + 2) tooDeep cs
  | _ :: cs => extent depth ignored (n + 1) tooDeep cs
  | [] => ⟨n, false, tooDeep⟩

/-- Reads the comment whose opener is in front of `body`. -/
def readBlock (p : Position) (body : List Char) : Reading :=
  let inside := (p.next '(').next '*'
  let e := extent 1 0 0 none body
  let deep := match e.tooDeep with
    | none => []
    | some n => [Diagnostic.ofPosition .commentTooDeep (inside.after (body.take n))]
  if e.closed then
    { token := .blockComment, length := e.length + 2, reports := deep
      length_pos := Nat.succ_pos _ }
  else
    { token := .malformedComment
      length := e.length + 2
      reports := deep ++ [.ofPosition .unterminatedComment p]
      length_pos := Nat.succ_pos _ }

/-- Reads the comment that starts with an exclamation mark in front of `rest`. -/
def readLine (rest : List Char) : Reading where
  token := .lineComment
  length := (rest.takeWhile (· != '\n')).length + 1
  reports := []
  length_pos := Nat.succ_pos _

/-- The extent of a pragma of which `n` characters have been read, and whether it has an end. -/
def pragmaExtent (n : Nat) : List Char → Nat × Bool
  | '*' :: '>' :: _ => (n + 2, true)
  | _ :: cs => pragmaExtent (n + 1) cs
  | [] => (n, false)

/-- Reads the pragma whose opener is in front of `body`. -/
def readPragma (p : Position) (body : List Char) : Reading :=
  let (n, closed) := pragmaExtent 0 body
  { token := if closed then .pragma else .malformedPragma
    length := n + 2
    reports := if closed then [] else [.ofPosition .unterminatedPragma p]
    length_pos := Nat.succ_pos _ }

/-- The number of characters up to the end of the next line that starts with `?>`, counted from
`n`; `none` when no later line starts so. -/
def disabledExtent? (n : Nat) : List Char → Option Nat
  | '\n' :: '?' :: '>' :: cs => some (n + 3 + (cs.takeWhile (· != '\n')).length)
  | _ :: cs => disabledExtent? (n + 1) cs
  | [] => none

/-- Disabled code whose opener `?<` starts the text. -/
def disabled : Rule := fun p cs =>
  match disabledExtent? 0 cs with
  | some n => ⟨n, []⟩
  | none => ⟨cs.length, [.ofPosition .unterminatedDisabled p]⟩

end Modula.Comment
