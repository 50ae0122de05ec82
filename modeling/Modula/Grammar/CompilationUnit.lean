import Modula.Grammar.Declaration

/-!
# Compilation units

The nested constructs are tied together here, and the rules for modules are built on them. A
construct is read with the number of levels that may still be opened; where there are none left,
reading fails.
-/

namespace Modula.Grammar

open Modula.Parser

variable (o : ParseOptions)

/-- The rule of a nested construct. -/
def nestedRule (call : Call) : Nested → Parser Node
  | .expression => expression call
  | .statement => statement o call
  | .type => typeDenoter o call
  | .procedure => procedureDeclaration o call
  | .variantFields => variantFieldList o call

/-- A nested construct that may open so many levels, its own included. -/
def nested : Nat → Call
  | 0, _ => do
    report (faultAt .nestingTooDeep (← lookahead))
    throw (.failed (.nestingTooDeep o.maxNesting))
  | levels + 1, x => nestedRule o (nested levels) x

/-- A nested construct with all levels to open. -/
def outermost : Call := nested o o.maxNesting

/-! ## Imports -/

/-- `FROM ident IMPORT identList` -/
def unqualifiedImport : Parser Node := do
  advance
  let module ← ident (behindImportedName.insert .kwImport)
  expect .kwImport (identStart ∪ behindImportedName)
  let names ← identList behindImportedName
  return .branch .unqualifiedImport [module, names]

/-- `IMPORT ident { "," ident }` -/
def qualifiedImport : Parser Node := do
  advance
  let modules ← separated .comma (ident behindImportedName)
  return .branch .qualifiedImport (modules.filter (!·.isEmpty))

/-- `import := IMPORT ident { "," ident } ";" | FROM ident IMPORT identList ";"` -/
def importClause : Parser Node := do
  let node ← ifAt .kwFrom unqualifiedImport qualifiedImport
  expect .semicolon importFollow
  return node

/-- `{ import }` -/
def importList : Parser Node := do
  let imports ← whileAtAny importStart importClause
  return listNode .importList imports

/-! ## Modules -/

/-- `MODULE ident ";"` -/
def moduleHeader : Parser Node := do
  expect .kwModule behindModuleWord
  let name ← ident behindModuleName
  expect .semicolon importFollow
  return name

/-- `ident "."` and nothing behind. -/
def unitClosing (name : Node) : Parser Unit := do
  closing name.value? (tokens [.dot])
  expect .dot unitEnd
  ifAt .endOfFile
    (return ())
    (do unexpected (.token .endOfFile); skipTo unitEnd)

/-- `definitionModule := DEFINITION MODULE ident ";" { import } { definition } END ident "."` -/
def definitionModule : Parser Node := do
  advance
  let name ← moduleHeader
  let imports ← importList
  let definitions ← declarationList o (outermost o) .definitions
  expect .kwEnd blockFollow
  unitClosing name
  return .branch .definitionModule [name, imports, definitions]

/-- `MODULE ident ";" { import } block ident "."`, with the kind of module that was announced. -/
def programModule (kind : Kind) : Parser Node := do
  let name ← moduleHeader
  let imports ← importList
  let body ← block o (outermost o)
  unitClosing name
  return .branch kind [name, imports, body]

/-- What a unit of the kind starts with. -/
def startOf : UnitKind → TokenSet
  | .any => unitStart
  | .definition => definitionStart
  | .program => programStart

/-- `compilationUnit := definitionModule | [ IMPLEMENTATION ] programModule`, as far as units of
the kind are accepted. -/
def compilationUnit (kind : UnitKind) : Parser Node := do
  let first ← lookahead
  if (startOf kind).contains first.token then
    match first.token with
    | .kwDefinition => definitionModule o
    | .kwImplementation => do
      advance
      programModule o .implementationModule
    | _ => programModule o .programModule
  else do
    report { faultBy .invalidStart first with expected := Expected.set (startOf kind) }
    throw (.failed .invalidStart)

end Modula.Grammar
