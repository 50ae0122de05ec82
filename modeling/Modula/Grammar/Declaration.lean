import Modula.Grammar.Statement
import Modula.Grammar.TypeDenoter

/-!
# Declarations

A definition module holds definitions, a block declarations. They differ in two points: a procedure
is defined by its header alone, and a type may be opaque in a definition only.
-/

namespace Modula.Grammar

open Modula.Parser

/-- Where declarations stand. -/
inductive Part where
  /-- In a definition module. -/
  | definitions
  /-- In a block. -/
  | declarations
deriving DecidableEq, Repr

/-- The node for the declarations of a part. -/
def Part.kind : Part → Kind
  | definitions => .definitionList
  | declarations => .declarationList

/-- What closes the declarations of a part. -/
def Part.closers : Part → TokenSet
  | definitions => definitionsEnd
  | declarations => declarationsEnd

/-- Counts a declaration. -/
def countDeclaration : Parser Unit :=
  count fun s => { s with declarations := s.declarations + 1 }

/-- Counts a procedure, which is a declaration too. -/
def countProcedure : Parser Unit :=
  count fun s => { s with procedures := s.procedures + 1, declarations := s.declarations + 1 }

/-! ## Procedure headers -/

/-- `[ CONST | VAR ]` -/
def parameterMode : Parser Kind := do
  match ← token with
  | .kwConst => do
    advance
    return .constantParameters
  | .kwVar => do
    advance
    return .variableParameters
  | _ => return .valueParameters

/-- `formalParams := [ CONST | VAR ] identList ":" formalType` -/
def formalParameters : Parser Node := do
  let kind ← parameterMode
  let names ← identList (formalParametersFollow.insert .colon)
  expect .colon (formalTypeStart ∪ formalParametersFollow)
  let type ← formalType formalParametersFollow
  return .branch kind [names, type]

/-- `formalParams { ";" formalParams } ")"`, or the closing parenthesis alone. -/
def formalParameterList (o : ParseOptions) : Parser Node :=
  ifAt .rParen
    (do advance; return .empty)
    (do
      let parameters ← semicolonList o ∅ (tokens [.rParen]) formalParameters
      expect .rParen (headerFollow.insert .colon)
      return .branch .formalParameterList parameters)

/-- The head of a procedure. -/
structure Header where
  name : Node
  parameters : Node
  result : Node

/-- `procedureHeader := PROCEDURE ident [ "(" formalParams { ";" formalParams } ")" ]
[ ":" qualident ]` -/
def procedureHeader (o : ParseOptions) : Parser Header := do
  advance
  let name ← ident (headerFollow ∪ tokens [.lParen, .colon])
  let parameters ← optionalAt .lParen (formalParameterList o)
  let result ← optionalAt .colon (qualident headerFollow)
  return { name, parameters, result }

/-- `procedureHeader ";"` -/
def procedureDefinition (o : ParseOptions) : Parser Node := do
  let header ← procedureHeader o
  expect .semicolon declarationFollow
  countProcedure
  return .branch .procedureDefinition [header.name, header.parameters, header.result]

/-! ## Constants, types and variables -/

variable (o : ParseOptions) (call : Call)

/-- `constDef := ident "=" expression` -/
def constantDefinition : Parser Node := do
  let name ← ident behindDeclaredItem
  expect .equal expressionOrFollow
  let value ← call .expression
  countDeclaration
  return .branch .constantDefinition [name, value]

/-- `OPAQUE`, which is a fault outside definitions. -/
def opaqueType (part : Part) : Parser Node := do
  match part with
  | .definitions => advance
  | .declarations => do
    report (faultAt .opaqueOutsideDefinition (← lookahead))
    advance
  return .bare .opaqueType

/-- `typeDef := ident "=" ( type | OPAQUE )` -/
def typeDefinition (part : Part) : Parser Node := do
  let name ← ident behindDeclaredItem
  expect .equal (typeOrFollow.insert .kwOpaque)
  let denoter ← ifAt .kwOpaque (opaqueType part) (call .type)
  countDeclaration
  return .branch .typeDefinition [name, denoter]

/-- `varDecl := identList ":" type` -/
def variableDeclaration : Parser Node := do
  let names ← identList ((behindDeclaredItem ∪ typeOrFollow).insert .colon)
  expect .colon typeOrFollow
  let type ← call .type
  countDeclaration
  return .branch .variableDeclaration [names, type]

/-- A section word and `{ item ";" }`. -/
def declarationSection (item : Parser Node) : Parser (List Node) := do
  advance
  whileAtAny identStart do
    let node ← item
    expect .semicolon behindDeclaredItem
    return node

/-! ## Lists of declarations -/

/-- A procedure, as the part has it. -/
def procedureIn : Part → Parser Node
  | .definitions => procedureDefinition o
  | .declarations => call .procedure

/-- One section of a list of declarations. Symbols that start none are skipped. -/
def declarationRound (part : Part) (found : List (List Node)) :
    Parser (Round (List (List Node))) := do
  match ← token with
  | .kwConst => return .more ((← declarationSection (constantDefinition call)) :: found)
  | .kwType => return .more ((← declarationSection (typeDefinition call part)) :: found)
  | .kwVar => return .more ((← declarationSection (variableDeclaration call)) :: found)
  | .kwProcedure => return .more ([← procedureIn o call part] :: found)
  | _ =>
    ifAtAny part.closers
      (return .done found)
      (do
        expectAny (declarationStart ∪ part.closers) (declarationStart ∪ part.closers)
        return .more found)

/-- `{ definition }` or `{ declaration }` -/
def declarationList (part : Part) : Parser Node := do
  let sections ← loop (declarationRound o call part) []
  return listNode part.kind sections.reverse.flatten

/-- `block := { declaration } [ BEGIN statementSequence ] END` -/
def block : Parser Node := do
  let declarations ← declarationList o call .declarations
  let body ← optionalAt .kwBegin (statementSequence o call)
  expect .kwEnd blockFollow
  return .branch .block [declarations, body]

/-- `procedureHeader ";" block ident ";"` -/
def procedureDeclaration : Parser Node := do
  let header ← procedureHeader o
  expect .semicolon declarationFollow
  let body ← block o call
  closing header.name.value? headerFollow
  expect .semicolon declarationFollow
  countProcedure
  return .branch .procedureDeclaration [header.name, header.parameters, header.result, body]

end Modula.Grammar
