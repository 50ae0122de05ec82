import Modula.Diagnostic.Queue
import Modula.Grammar.Sets
import Modula.Lexical.Stream
import Modula.Tree.Basic

/-!
# Reading by one symbol of lookahead

The grammar reads symbols one by one and decides by the next one alone. Comments and pragmas are
put aside before it sees them, and the lexical faults found on the way to a symbol are recorded
when it comes into view.

The rules of the grammar are written with the operations of this module only: look at the next
symbol, consume it, report a fault at it, skip to a member of a set, count something, repeat. A
repetition makes at most one round more than there are symbols left. If it is to go on after that, it
has gone on without consuming a symbol, and might do so for ever: then reading stops, for a reason
of its own.
-/

namespace Modula

/-- Why a compilation unit has no tree. -/
inductive Failure where
  /-- The source does not start like a unit of the kind that was asked for. -/
  | invalidStart
  /-- Constructs are nested deeper than the limit. -/
  | nestingTooDeep (limit : Nat)
deriving DecidableEq, Repr

/-- The wording of the failure. -/
def Failure.message : Failure → String
  | invalidStart => "source does not start with the expected module header"
  | nestingTooDeep limit => s!"nesting exceeds the limit of {limit}"

/-- Why reading stops without an answer. -/
inductive Stop where
  /-- There is no tree. -/
  | failed (f : Failure)
  /-- A repetition was to go on after more rounds than there were symbols to consume. -/
  | endless
deriving DecidableEq, Repr

/-- A symbol that the grammar sees, with what was put aside in front of it and the lexical faults
found since the symbol before. -/
structure Item where
  trivia : List Symbol
  reports : List Diagnostic
  symbol : Symbol

instance : Inhabited Item := ⟨⟨[], [], default⟩⟩

/-- Puts a symbol in front of the items behind it. -/
def Item.consScanned (s : Scanned) (later : List Item) : List Item :=
  if s.symbol.token.isTrivia then
    match later with
    | [] => []
    | i :: later =>
      { i with trivia := s.symbol :: i.trivia, reports := s.reports ++ i.reports } :: later
  else ⟨[], s.reports, s.symbol⟩ :: later

/-- The items of a stream of symbols. -/
def Item.ofStream (stream : List Scanned) : List Item := stream.foldr consScanned []

/-- How far a unit has been read, and what has been noted on the way. -/
structure Progress where
  /-- The next symbol. -/
  lookahead : Symbol
  /-- What comes behind it. -/
  ahead : List Item
  /-- The faults recorded and the constructs counted. -/
  queue : Queue
  /-- The comments and pragmas that were put aside. -/
  trivia : Array Symbol
  /-- The lexemes that have come into view, comments and pragmas included. -/
  table : Interner

namespace Progress

/-- Brings an item into view. -/
def view (p : Progress) (i : Item) (ahead : List Item) : Progress where
  lookahead := i.symbol
  ahead := ahead
  queue := p.queue.append i.reports
  trivia := i.trivia.foldl Array.push p.trivia
  table := p.table.internAll (lexemes (i.trivia ++ [i.symbol]))

/-- Nothing has come into view yet. -/
def blank : Progress := ⟨default, [], {}, #[], .new⟩

/-- The start of a unit. -/
def start : List Item → Progress
  | [] => blank
  | i :: ahead => blank.view i ahead

/-- Consumes the next symbol; the last one stays in view. -/
def advance (p : Progress) : Progress :=
  match p.ahead with
  | [] => p
  | i :: ahead => p.view i ahead

/-- Records a fault. -/
def report (p : Progress) (d : Diagnostic) : Progress := { p with queue := p.queue.push d }

/-- Counts something. -/
def count (p : Progress) (f : Statistics → Statistics) : Progress :=
  { p with queue := { p.queue with stats := f p.queue.stats } }

theorem ahead_advance (p : Progress) : p.advance.ahead = p.ahead.tail := by
  unfold advance view; split <;> simp_all

/-- Consumes symbols until the next one is in the set or is the end of the source. -/
def skipTo (resync : TokenSet) (p : Progress) : Progress :=
  if p.lookahead.token = .endOfFile ∨ resync.contains p.lookahead.token ∨ p.ahead = [] then p
  else skipTo resync p.advance
termination_by p.ahead.length
decreasing_by
  rename_i h
  rw [ahead_advance, List.length_tail]
  have : 0 < p.ahead.length := List.length_pos_iff.2 fun h' => h (.inr (.inr h'))
  omega

end Progress

/-- A rule of the grammar: reads on, and either answers or stops. -/
abbrev Parser (α : Type) := ExceptT Stop (StateM Progress) α

/-- The trees that the grammar builds carry symbols. -/
abbrev Node := Tree Symbol

namespace Parser

open Grammar

variable {α : Type}

/-! ## Looking and consuming -/

/-- The next symbol. -/
def lookahead : Parser Symbol := return (← get).lookahead

/-- The token of the next symbol. -/
def token : Parser Token := return (← get).lookahead.token

/-- Consumes the next symbol and answers it. -/
def next : Parser Symbol := do
  let s ← lookahead
  modify Progress.advance
  return s

/-- Consumes the next symbol. -/
def advance : Parser Unit := modify Progress.advance

/-- Consumes symbols until the next one is in the set or is the end of the source. -/
def skipTo (resync : TokenSet) : Parser Unit := modify (Progress.skipTo resync)

/-- Chooses by whether the next token is `t`. -/
def ifAt (t : Token) (yes no : Parser α) : Parser α := do
  if (← token) = t then yes else no

/-- Chooses by whether the next token is in the set. -/
def ifAtAny (s : TokenSet) (yes no : Parser α) : Parser α := do
  if s.contains (← token) then yes else no

/-! ## Reporting and counting -/

/-- Records a fault. -/
def report (d : Diagnostic) : Parser Unit := modify (·.report d)

/-- A fault at a symbol. -/
def faultAt (code : Code) (s : Symbol) : Diagnostic := .ofPosition code s.position

/-- A fault at a symbol that says what the symbol is. -/
def faultBy (code : Code) (s : Symbol) : Diagnostic :=
  { faultAt code s with found := s.token, lexeme := s.lexeme? }

/-- Reports the next symbol as unexpected. -/
def unexpected (e : Expected) : Parser Unit := do
  report { faultBy .unexpectedSymbol (← lookahead) with expected := e }

/-- Counts something. -/
def count (f : Statistics → Statistics) : Parser Unit := modify (·.count f)

/-! ## Matching -/

/-- Consumes the token `t`, or reports that it is missing and skips; answers whether it was
there. -/
def accept (t : Token) (resync : TokenSet) : Parser Bool :=
  ifAt t
    (do advance; return true)
    (do unexpected (.token t); skipTo resync; return false)

/-- Consumes the token `t`, or reports that it is missing and skips. -/
def expect (t : Token) (resync : TokenSet) : Parser Unit := discard (accept t resync)

/-- Consumes a token of the set, or reports that it is missing and skips. -/
def expectAny (s : TokenSet) (resync : TokenSet) : Parser Unit :=
  ifAtAny s advance (do unexpected (.set s); skipTo resync)

/-- Consumes the next symbol as a terminal node. -/
def leaf (kind : Kind) : Parser Node := return .leaf kind (← next)

/-- An identifier; when there is none, it is reported, and the place stays empty. -/
def ident (resync : TokenSet) : Parser Node :=
  ifAtAny identStart
    (leaf .ident)
    (do unexpected (.token .stdIdent); skipTo resync; return .empty)

/-- What is wrong with a closing identifier. Where the opening one is missing, which was reported
before, any identifier closes. -/
def closingFault? (opening : Option Symbol) (closing : Symbol) : Option Diagnostic :=
  match opening with
  | none => none
  | some opening =>
    if opening.text = closing.text then none
    else
      some { faultAt .closingMismatch closing with
        lexeme := closing.text
        expected := Expected.name opening.text }

/-- The identifier that closes what `opening` opened. -/
def closing (opening : Option Symbol) (resync : TokenSet) : Parser Unit :=
  ifAtAny identStart
    (do
      match closingFault? opening (← lookahead) with
      | none => advance
      | some d => do report d; advance)
    (do unexpected (.token .stdIdent); skipTo resync)

/-! ## Repeating -/

/-- What a round of a repetition answers. -/
inductive Round (α : Type) where
  /-- There may be another round. -/
  | more (a : α)
  /-- This was the last round. -/
  | done (a : α)

/-- Repeats a round, at most once more than `bound` is long, and stops if this is not enough. -/
def repeatOn (round : α → Parser (Round α)) : List Item → α → Parser α
  | [], a => do
    match ← round a with
    | .more _ => throw .endless
    | .done a => return a
  | _ :: bound, a => do
    match ← round a with
    | .more a => repeatOn round bound a
    | .done a => return a

/-- Repeats a round until it was the last one. -/
def loop (round : α → Parser (Round α)) (a : α) : Parser α := do
  repeatOn round (← get).ahead a

/-- Repeats a rule as long as the next token is in the set. -/
def whileAtAny (s : TokenSet) (item : Parser α) : Parser (List α) :=
  List.reverse <$> loop
    (fun found => ifAtAny s (return .more ((← item) :: found)) (return .done found)) []

/-- `item { separator item }` -/
def separated (separator : Token) (item : Parser α) : Parser (List α) :=
  List.reverse <$> loop
    (fun found => do
      let found := (← item) :: found
      ifAt separator (do advance; return .more found) (return .done found)) []

end Parser

end Modula
