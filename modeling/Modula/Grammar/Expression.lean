import Modula.Grammar.Sequence

/-!
# Expressions

From the loosest binding to the tightest: relations, additive operators, multiplicative operators,
`NOT`, type conversion, and the factors. Operators of one level associate to the left, except that
an expression has at most one relation. A sign negates the first term of a sum only.
-/

namespace Modula.Grammar

open Modula.Parser

/-- The node of a relation. -/
def relationKind? : Token → Option Kind
  | .equal => some .equal
  | .notEqual => some .notEqual
  | .less => some .less
  | .lessOrEqual => some .lessOrEqual
  | .greater => some .greater
  | .greaterOrEqual => some .greaterOrEqual
  | .identity => some .identity
  | .kwIn => some .isIn
  | _ => none

/-- The node of an additive operator. -/
def additiveKind? : Token → Option Kind
  | .plus => some .plus
  | .minus => some .minus
  | .kwOr => some .or
  | _ => none

/-- The node of a multiplicative operator. -/
def multiplicativeKind? : Token → Option Kind
  | .asterisk => some .times
  | .solidus => some .divide
  | .kwDiv => some .div
  | .kwMod => some .mod
  | .kwAnd => some .and
  | _ => none

/-- The node of a literal. A malformed literal was reported when it was read and stands for a
well-formed one. -/
def literalKind? : Token → Option Kind
  | .wholeNumber | .malformedNumber => some .wholeValue
  | .realNumber => some .realValue
  | .charCode => some .characterValue
  | .quotedString | .malformedString => some .quotedValue
  | _ => none

variable (call : Call)

/-- `expressionList := expression { "," expression }` -/
def expressionList : Parser Node :=
  .branch .expressionList <$> separated .comma (call .expression)

/-- `valueComponent := expression [ ".." expression ]`, which is the form of case labels too. -/
def valueComponent : Parser Node := do
  let low ← call .expression
  ifAt .dotDot
    (do
      advance
      let high ← call .expression
      return .branch .range [low, high])
    (return low)

/-- `caseLabelList := valueComponent { "," valueComponent }` -/
def caseLabelList : Parser Node :=
  .branch .caseLabelList <$> separated .comma (valueComponent call)

/-- `structuredValue := "{" [ valueComponent { "," valueComponent } ] "}"` -/
def structuredValue : Parser Node := do
  advance
  let parts ← ifAt .rBrace (return []) (separated .comma (valueComponent call))
  expect .rBrace expressionFollow
  return .branch .structuredValue parts

/-- `actualParameters := "(" [ expressionList ] ")"` -/
def actualParameters : Parser Node := do
  advance
  let parts ← ifAt .rParen (return []) (separated .comma (call .expression))
  expect .rParen expressionFollow
  return .branch .arguments parts

/-- One selector of a designator. -/
def selectorRound (designator : Node) : Parser (Round Node) := do
  match ← token with
  | .dot => do
    advance
    let field ← ident expressionFollow
    return .more (.branch .field [designator, field])
  | .lBracket => do
    advance
    let subscripts ← expressionList call
    expect .rBracket expressionFollow
    return .more (.branch .subscript [designator, subscripts])
  | .deref => do
    advance
    return .more (.branch .dereference [designator])
  | _ => return .done designator

/-- `designator := ident { "." ident | "[" expressionList "]" | "^" }` -/
def designator : Parser Node := do
  loop (selectorRound call) (← ident expressionFollow)

/-- `designator [ actualParameters ]` -/
def designatorOrCall : Parser Node := do
  let designator ← designator call
  ifAt .lParen
    (do
      let arguments ← actualParameters call
      return .branch .functionCall [designator, arguments])
    (return designator)

/-- `"(" expression ")"` -/
def parenthesized : Parser Node := do
  advance
  let inner ← call .expression
  expect .rParen expressionFollow
  return inner

/-- `simpleFactor := literal | structuredValue | designator [ actualParameters ]
| "(" expression ")"` -/
def simpleFactor : Parser Node := do
  let t ← token
  match literalKind? t with
  | some kind => leaf kind
  | none =>
    if t = .lBrace then structuredValue call
    else if t = .lParen then parenthesized call
    else if identStart.contains t then designatorOrCall call
    else do
      unexpected (.set expressionStart)
      skipTo expressionFollow
      return .empty

/-- `factor := simpleFactor [ "::" qualident ]` -/
def factor : Parser Node := do
  let value ← simpleFactor call
  ifAt .typeConv
    (do
      advance
      let target ← qualident expressionFollow
      return .branch .typeConversion [value, target])
    (return value)

/-- `simpleTerm := [ NOT ] factor` -/
def simpleTerm : Parser Node :=
  ifAt .kwNot
    (do
      advance
      let operand ← factor call
      return .branch .not [operand])
    (factor call)

/-- One operator of a level with its right operand. -/
def operatorRound (kind? : Token → Option Kind) (operand : Parser Node) (left : Node) :
    Parser (Round Node) := do
  match kind? (← token) with
  | none => return .done left
  | some kind => do
    advance
    let right ← operand
    return .more (.branch kind [left, right])

/-- `term := simpleTerm { operL3 simpleTerm }` -/
def term : Parser Node := do
  loop (operatorRound multiplicativeKind? (simpleTerm call)) (← simpleTerm call)

/-- `[ "+" | "-" ] term` -/
def signedTerm : Parser Node := do
  match ← token with
  | .minus => do
    advance
    let operand ← term call
    return .branch .negation [operand]
  | .plus => do
    advance
    term call
  | _ => term call

/-- `simpleExpression := [ "+" | "-" ] term { operL2 term }` -/
def simpleExpression : Parser Node := do
  loop (operatorRound additiveKind? (term call)) (← signedTerm call)

/-- `expression := simpleExpression [ operL1 simpleExpression ]` -/
def expression : Parser Node := do
  let left ← simpleExpression call
  match relationKind? (← token) with
  | none => return left
  | some kind => do
    advance
    let right ← simpleExpression call
    return .branch kind [left, right]

end Modula.Grammar
