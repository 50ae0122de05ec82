import Modula.TokenSet

/-!
# Token sets of the grammar

Which tokens a construct can start with, and where reading goes on after a fault in it. The end of
the source is in every set of the second sort, so looking for a member of it always comes to an
end.
-/

namespace Modula.Grammar

/-- The set of the listed tokens. -/
def tokens (ts : List Token) : TokenSet := .ofList ts

/-! ## Tokens a construct starts with -/

/-- What can stand for an identifier. A malformed one was reported when it was read. -/
def identStart : TokenSet := tokens [.stdIdent, .foreignIdent, .malformedIdent]

/-- What can stand for a literal, the malformed ones included. -/
def literalStart : TokenSet :=
  tokens [.wholeNumber, .realNumber, .charCode, .quotedString, .malformedNumber, .malformedString]

def definitionStart : TokenSet := tokens [.kwDefinition]

def programStart : TokenSet := tokens [.kwImplementation, .kwModule]

def unitStart : TokenSet := definitionStart ∪ programStart

def importStart : TokenSet := tokens [.kwImport, .kwFrom]

def declarationStart : TokenSet := tokens [.kwConst, .kwType, .kwVar, .kwProcedure]

def typeStart : TokenSet :=
  identStart ∪ tokens [.kwAlias, .lBracket, .lParen, .kwSet, .kwArray, .kwRecord, .kwPointer,
    .kwProcedure]

def formalTypeStart : TokenSet := identStart ∪ tokens [.kwArglist, .kwCast, .kwArray]

def fieldListStart : TokenSet := identStart.insert .kwCase

def statementStart : TokenSet :=
  identStart ∪ tokens [.kwIf, .kwCase, .kwLoop, .kwWhile, .kwRepeat, .kwFor, .kwReturn, .kwExit]

def expressionStart : TokenSet :=
  identStart ∪ literalStart ∪ tokens [.lBrace, .lParen, .plus, .minus, .kwNot]

/-! ## Tokens behind a construct -/

/-- What closes a statement sequence. -/
def statementsEnd : TokenSet :=
  tokens [.kwEnd, .kwElsif, .kwElse, .kwUntil, .bar, .endOfFile]

def statementFollow : TokenSet := statementsEnd.insert .semicolon

/-- What closes a field list sequence. -/
def fieldsEnd : TokenSet := tokens [.kwEnd, .kwElse, .bar, .endOfFile]

def fieldListFollow : TokenSet := fieldsEnd.insert .semicolon

def typeFollow : TokenSet := fieldListFollow.insert .rParen

def expressionFollow : TokenSet :=
  statementFollow ∪ tokens [.kwThen, .kwDo, .kwOf, .kwTo, .kwBy, .comma, .colon, .dotDot, .rParen,
    .rBracket, .rBrace]

/-- What closes a list of definitions. -/
def definitionsEnd : TokenSet := tokens [.kwEnd, .endOfFile]

/-- What closes the declarations of a block. -/
def declarationsEnd : TokenSet := tokens [.kwBegin, .kwEnd, .endOfFile]

def declarationFollow : TokenSet := declarationStart ∪ declarationsEnd

def importFollow : TokenSet := importStart ∪ declarationFollow

def formalParametersFollow : TokenSet := tokens [.semicolon, .rParen, .endOfFile]

def headerFollow : TokenSet := declarationFollow.insert .semicolon

/-- The closing identifier behind a block, or what comes behind that. -/
def blockFollow : TokenSet := identStart ∪ tokens [.dot, .semicolon, .endOfFile]

/-- Nothing but the end of the source. -/
def unitEnd : TokenSet := tokens [.endOfFile]

/-! ## Tokens to go on at -/

/-- Behind a condition without `THEN`: the next branch, or the end. -/
def withoutThen : TokenSet := tokens [.kwElsif, .kwElse, .kwEnd, .endOfFile]

/-- Behind the name of a module. -/
def behindModuleName : TokenSet := importFollow.insert .semicolon

/-- Behind the word `MODULE`. -/
def behindModuleWord : TokenSet := identStart ∪ behindModuleName

/-- Behind a constant, a type or a variable: another one, or another section. -/
def behindDeclaredItem : TokenSet := identStart ∪ declarationFollow

def behindImportedName : TokenSet := importFollow ∪ tokens [.comma, .semicolon]

def typeOrFollow : TokenSet := typeStart ∪ typeFollow

def expressionOrFollow : TokenSet := expressionStart ∪ expressionFollow

def statementOrFollow : TokenSet := statementStart ∪ statementFollow

end Modula.Grammar
