import Modula.Grammar.Expression

/-!
# Statements
-/

namespace Modula.Grammar

open Modula.Parser

variable (o : ParseOptions) (call : Call)

/-- `statementSequence := statement { ";" statement }` -/
def statementSequence : Parser Node :=
  ifAtAny statementsEnd
    (missingItems .emptyStatements)
    (do
      let statements ← semicolonList o statementStart statementsEnd (call .statement)
      return listNode .statementSequence statements)

/-- `designator [ ":=" expression | actualParameters ]` -/
def assignmentOrCall : Parser Node := do
  let designator ← designator call
  match ← token with
  | .assign => do
    advance
    let value ← call .expression
    return .branch .assignment [designator, value]
  | .lParen => do
    let arguments ← actualParameters call
    return .branch .procedureCall [designator, arguments]
  | _ => return .branch .procedureCall [designator, .empty]

/-! ## Branches -/

/-- `THEN statementSequence`; without the word, the branch is skipped and stays empty. -/
def thenBranch : Parser Node := do
  if ← accept .kwThen withoutThen then statementSequence o call else return .empty

/-- `[ ELSE statementSequence ]` -/
def elseBranch : Parser Node := optionalAt .kwElse (statementSequence o call)

/-- `ELSIF expression THEN statementSequence` -/
def elsifBranch : Parser Node := do
  advance
  let condition ← call .expression
  let body ← thenBranch o call
  return .branch .elsifBranch [condition, body]

/-- `IF expression THEN statementSequence { ELSIF expression THEN statementSequence }
[ ELSE statementSequence ] END` -/
def ifStatement : Parser Node := do
  advance
  let condition ← call .expression
  let body ← thenBranch o call
  let elsifs ← whileAtAny (tokens [.kwElsif]) (elsifBranch o call)
  let otherwise ← elseBranch o call
  expect .kwEnd statementFollow
  return .branch .ifStatement [condition, body, listNode .elsifList elsifs, otherwise]

/-- `case := caseLabelList ":" statementSequence` -/
def caseBranch : Parser Node := do
  let labels ← caseLabelList call
  expect .colon statementOrFollow
  let body ← statementSequence o call
  return .branch .caseBranch [labels, body]

/-- One branch of a case statement with the `|` in front of it, which may be missing in front of
the first one. -/
def caseRound (found : List Node) : Parser (Round (List Node)) :=
  ifAt .bar
    (do
      advance
      return .more ((← caseBranch o call) :: found))
    (if found.isEmpty then
      ifAtAny expressionStart
        (return .more ((← caseBranch o call) :: found))
        (return .done found)
    else return .done found)

/-- `CASE expression OF { "|" case } [ ELSE statementSequence ] END` -/
def caseStatement : Parser Node := do
  advance
  let selector ← call .expression
  expect .kwOf (expressionStart ∪ statementsEnd)
  let branches ← loop (caseRound o call) []
  let otherwise ← elseBranch o call
  expect .kwEnd statementFollow
  return .branch .caseStatement [selector, listNode .caseList branches.reverse, otherwise]

/-! ## Loops -/

/-- `LOOP statementSequence END` -/
def loopStatement : Parser Node := do
  advance
  let body ← statementSequence o call
  expect .kwEnd statementFollow
  return .branch .loopStatement [body]

/-- `WHILE expression DO statementSequence END` -/
def whileStatement : Parser Node := do
  advance
  let condition ← call .expression
  expect .kwDo statementOrFollow
  let body ← statementSequence o call
  expect .kwEnd statementFollow
  return .branch .whileStatement [condition, body]

/-- `REPEAT statementSequence UNTIL expression` -/
def repeatStatement : Parser Node := do
  advance
  let body ← statementSequence o call
  expect .kwUntil (expressionStart ∪ statementFollow)
  let condition ← call .expression
  return .branch .repeatStatement [body, condition]

/-- `FOR ident ":=" expression TO expression [ BY expression ] DO statementSequence END` -/
def forStatement : Parser Node := do
  advance
  let control ← ident (expressionFollow.insert .assign)
  expect .assign (expressionStart ∪ expressionFollow)
  let first ← call .expression
  expect .kwTo (expressionStart ∪ expressionFollow)
  let last ← call .expression
  let step ← optionalAt .kwBy (call .expression)
  expect .kwDo statementOrFollow
  let body ← statementSequence o call
  expect .kwEnd statementFollow
  return .branch .forStatement [control, first, last, step, body]

/-- `RETURN [ expression ]` -/
def returnStatement : Parser Node := do
  advance
  let value ← ifAtAny expressionStart (call .expression) (return .empty)
  return .branch .returnStatement [value]

/-- `EXIT` -/
def exitStatement : Parser Node := do
  advance
  return .bare .exitStatement

/-- The rule for a statement that starts with the token, if one does. -/
def statementRule? (t : Token) : Option (Parser Node) :=
  match t with
  | .kwIf => some (ifStatement o call)
  | .kwCase => some (caseStatement o call)
  | .kwLoop => some (loopStatement o call)
  | .kwWhile => some (whileStatement o call)
  | .kwRepeat => some (repeatStatement o call)
  | .kwFor => some (forStatement o call)
  | .kwReturn => some (returnStatement call)
  | .kwExit => some exitStatement
  | t => if identStart.contains t then some (assignmentOrCall call) else none

/-- `statement := assignmentOrCall | ifStatement | caseStatement | loopStatement | whileStatement
| repeatStatement | forStatement | RETURN [ expression ] | EXIT` -/
def statement : Parser Node := do
  match statementRule? o call (← token) with
  | some rule => do
    let node ← rule
    count fun s => { s with statements := s.statements + 1 }
    return node
  | none => do
    expectAny statementStart statementFollow
    return .empty

end Modula.Grammar
