import Modula.Grammar.Expression

/-!
# Type denoters, field lists and formal types
-/

namespace Modula.Grammar

open Modula.Parser

/-- `[ "+" qualident "," ]`, the type that an enumeration extends. -/
def enumBase : Parser Node :=
  ifAt .plus
    (do
      advance
      let base ← qualident (typeFollow.insert .comma)
      expect .comma (identStart ∪ typeFollow)
      return base)
    (return .empty)

/-- `enumType := "(" [ "+" qualident "," ] identList ")"` -/
def enumType : Parser Node := do
  advance
  let base ← enumBase
  let values ← identList typeFollow
  expect .rParen typeFollow
  return .branch .enumType [base, values]

/-- `aliasType := ALIAS OF qualident` -/
def aliasType : Parser Node := do
  advance
  expect .kwOf (identStart ∪ typeFollow)
  let base ← qualident typeFollow
  return .branch .aliasType [base]

/-- `setType := SET OF ( qualident | enumType )` -/
def setType : Parser Node := do
  advance
  expect .kwOf ((identStart ∪ typeFollow).insert .lParen)
  let base ← ifAt .lParen enumType (qualident typeFollow)
  return .branch .setType [base]

/-! ## Formal types -/

/-- `[ ARRAY OF ] qualident` -/
def parameterType (resync : TokenSet) : Parser Node :=
  ifAt .kwArray
    (do
      advance
      expect .kwOf (identStart ∪ resync)
      let element ← qualident resync
      return .branch .openArray [element])
    (qualident resync)

/-- `formalType := [ ARGLIST OF | CAST ] [ ARRAY OF ] qualident` -/
def formalType (resync : TokenSet) : Parser Node := do
  match ← token with
  | .kwArglist => do
    advance
    expect .kwOf (formalTypeStart ∪ resync)
    let inner ← parameterType resync
    return .branch .argumentList [inner]
  | .kwCast => do
    advance
    let inner ← parameterType resync
    return .branch .castParameter [inner]
  | _ => parameterType resync

/-- `formalType { "," formalType } ")"`, or the closing parenthesis alone. -/
def formalTypeList : Parser Node :=
  ifAt .rParen
    (do advance; return .empty)
    (do
      let types ← separated .comma (formalType (typeFollow ∪ tokens [.comma, .colon]))
      expect .rParen (typeFollow.insert .colon)
      return .branch .formalTypeList types)

/-- `procedureType := PROCEDURE [ "(" formalType { "," formalType } ")" ] [ ":" qualident ]` -/
def procedureType : Parser Node := do
  advance
  let parameters ← optionalAt .lParen formalTypeList
  let result ← optionalAt .colon (qualident typeFollow)
  return .branch .procedureType [parameters, result]

variable (o : ParseOptions) (call : Call)

/-- `subrangeType := "[" expression ".." expression "]" [ OF qualident ]` -/
def subrangeType : Parser Node := do
  advance
  let low ← call .expression
  expect .dotDot (expressionStart.insert .rBracket)
  let high ← call .expression
  expect .rBracket (typeFollow.insert .kwOf)
  let base ← optionalAt .kwOf (qualident typeFollow)
  return .branch .subrangeType [low, high, base]

/-- `arrayType := ARRAY expression { "," expression } OF type` -/
def arrayType : Parser Node := do
  advance
  let dimensions ← expressionList call
  expect .kwOf typeOrFollow
  let element ← call .type
  return .branch .arrayType [dimensions, element]

/-- `pointerType := POINTER TO type` -/
def pointerType : Parser Node := do
  advance
  expect .kwTo typeOrFollow
  let target ← call .type
  return .branch .pointerType [target]

/-! ## Field lists -/

/-- What a field list starts with: with variant records, `CASE` as well as an identifier. -/
def fieldListStartOf : RecordGrammar → TokenSet
  | .variant => fieldListStart
  | .extensible => identStart

/-- `identList ":" type` -/
def fields : Parser Node := do
  let names ← identList ((fieldListFollow ∪ typeStart).insert .colon)
  expect .colon typeOrFollow
  let type ← call .type
  return .branch .fieldList [names, type]

/-- `fieldList := identList ":" type | variantFieldList` -/
def fieldList : Parser Node := do
  let t ← token
  let start := fieldListStartOf o.records
  if identStart.contains t then fields call
  else if t = .kwCase ∧ start.contains t then call .variantFields
  else do
    expectAny start fieldListFollow
    return .empty

/-- `fieldListSequence := fieldList { ";" fieldList }` -/
def fieldListSequence : Parser Node :=
  ifAtAny fieldsEnd
    (missingItems .emptyFields)
    (do
      let lists ← semicolonList o (fieldListStartOf o.records) fieldsEnd (fieldList o call)
      return listNode .fieldListSequence lists)

/-- `variant := caseLabelList ":" fieldListSequence` -/
def variant : Parser Node := do
  let labels ← caseLabelList call
  expect .colon (fieldListStart ∪ fieldListFollow)
  let fields ← fieldListSequence o call
  return .branch .variant [labels, fields]

/-- `variantFieldList := CASE [ ident ] ":" qualident OF [ "|" ] variant { "|" variant }
[ ELSE fieldListSequence ] END` -/
def variantFieldList : Parser Node := do
  advance
  let tag ← ifAtAny identStart (leaf .ident) (return .empty)
  expect .colon ((identStart ∪ fieldListFollow).insert .kwOf)
  let tagType ← qualident (fieldListFollow.insert .kwOf)
  expect .kwOf (expressionStart ∪ fieldListFollow)
  ifAt .bar advance (return ())
  let variants ← separated .bar (variant o call)
  let otherwise ← optionalAt .kwElse (fieldListSequence o call)
  expect .kwEnd fieldListFollow
  return .branch .variantFieldList [tag, tagType, .branch .variantList variants, otherwise]

/-- `[ "(" qualident ")" ]`, the record that a record extends. -/
def recordBase : Parser Node :=
  ifAt .lParen
    (do
      advance
      let base ← qualident ((fieldListFollow ∪ identStart).insert .rParen)
      expect .rParen (fieldListStart ∪ fieldListFollow)
      return base)
    (return .empty)

/-- What stands between `RECORD` and `END`. -/
def recordBody : Parser Node := do
  match o.records with
  | .variant => do
    let fields ← fieldListSequence o call
    return .branch .recordType [fields]
  | .extensible => do
    let base ← recordBase
    let fields ← fieldListSequence o call
    return .branch .extensibleRecordType [base, fields]

/-- `recordType := RECORD [ "(" qualident ")" ] fieldListSequence END`, where the base is for
extensible records only. -/
def recordType : Parser Node := do
  advance
  let node ← recordBody o call
  expect .kwEnd typeFollow
  return node

/-- `type := ALIAS OF qualident | qualident | subrangeType | enumType | setType | arrayType
| recordType | pointerType | procedureType` -/
def typeDenoter : Parser Node := do
  match ← token with
  | .kwAlias => aliasType
  | .lBracket => subrangeType call
  | .lParen => enumType
  | .kwSet => setType
  | .kwArray => arrayType call
  | .kwRecord => recordType o call
  | .kwPointer => pointerType call
  | .kwProcedure => procedureType
  | t =>
    if identStart.contains t then qualident typeFollow
    else do
      expectAny typeStart typeFollow
      return .empty

end Modula.Grammar
