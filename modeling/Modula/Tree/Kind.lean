/-!
# Kinds of tree nodes

What a node of the syntax tree stands for. Each kind has a canonical name in capitals, by which
trees are printed; no two kinds share a name.
-/

namespace Modula

/-- What a node of the tree stands for. -/
inductive Kind where
  -- the placeholder for an absent part
  | empty
  -- compilation units
  | definitionModule | implementationModule | programModule | importList | qualifiedImport
  | unqualifiedImport | block | definitionList | declarationList
  -- definitions and declarations
  | constantDefinition | typeDefinition | variableDeclaration | procedureDefinition
  | procedureDeclaration
  -- types
  | aliasType | qualifiedIdent | subrangeType | enumType | setType | arrayType | recordType
  | extensibleRecordType | pointerType | procedureType | formalTypeList | opaqueType
  | fieldListSequence | fieldList | variantFieldList | variantList | variant
  -- formal parameters
  | formalParameterList | valueParameters | constantParameters | variableParameters
  | argumentList | castParameter | openArray
  -- statements
  | statementSequence | assignment | procedureCall | ifStatement | elsifList | elsifBranch
  | caseStatement | caseList | caseBranch | caseLabelList | range | loopStatement
  | whileStatement | repeatStatement | forStatement | returnStatement | exitStatement
  -- expressions
  | equal | notEqual | less | lessOrEqual | greater | greaterOrEqual | identity | isIn | plus
  | minus | or | times | divide | div | mod | and | negation | not | typeConversion
  | functionCall | arguments | field | subscript | dereference | structuredValue
  | expressionList
  -- terminals
  | ident | identList | wholeValue | realValue | characterValue | quotedValue
deriving DecidableEq, Repr

namespace Kind

/-- Every kind, in the order above. -/
def all : List Kind :=
  [.empty, .definitionModule, .implementationModule, .programModule, .importList,
    .qualifiedImport, .unqualifiedImport, .block, .definitionList, .declarationList,
    .constantDefinition, .typeDefinition, .variableDeclaration, .procedureDefinition,
    .procedureDeclaration, .aliasType, .qualifiedIdent, .subrangeType, .enumType, .setType,
    .arrayType, .recordType, .extensibleRecordType, .pointerType, .procedureType,
    .formalTypeList, .opaqueType, .fieldListSequence, .fieldList, .variantFieldList,
    .variantList, .variant, .formalParameterList, .valueParameters, .constantParameters,
    .variableParameters, .argumentList, .castParameter, .openArray, .statementSequence,
    .assignment, .procedureCall, .ifStatement, .elsifList, .elsifBranch, .caseStatement,
    .caseList, .caseBranch, .caseLabelList, .range, .loopStatement, .whileStatement,
    .repeatStatement, .forStatement, .returnStatement, .exitStatement, .equal, .notEqual, .less,
    .lessOrEqual, .greater, .greaterOrEqual, .identity, .isIn, .plus, .minus, .or, .times,
    .divide, .div, .mod, .and, .negation, .not, .typeConversion, .functionCall, .arguments,
    .field, .subscript, .dereference, .structuredValue, .expressionList, .ident, .identList,
    .wholeValue, .realValue, .characterValue, .quotedValue]

/-- The canonical name. -/
def name : Kind → String
  | .empty => "EMPTY"
  | .definitionModule => "DEFMOD"
  | .implementationModule => "IMPMOD"
  | .programModule => "PGMMOD"
  | .importList => "IMPLIST"
  | .qualifiedImport => "IMPORT"
  | .unqualifiedImport => "UNQIMP"
  | .block => "BLOCK"
  | .definitionList => "DEFLIST"
  | .declarationList => "DECLLIST"
  | .constantDefinition => "CONSTDEF"
  | .typeDefinition => "TYPEDEF"
  | .variableDeclaration => "VARDECL"
  | .procedureDefinition => "PROCDEF"
  | .procedureDeclaration => "PROCDECL"
  | .aliasType => "ALIAS"
  | .qualifiedIdent => "QUALIDENT"
  | .subrangeType => "SUBR"
  | .enumType => "ENUM"
  | .setType => "SET"
  | .arrayType => "ARRAY"
  | .recordType => "RECORD"
  | .extensibleRecordType => "EXTREC"
  | .pointerType => "POINTER"
  | .procedureType => "PROCTYPE"
  | .formalTypeList => "FTYPELIST"
  | .opaqueType => "OPAQUE"
  | .fieldListSequence => "FIELDLISTSEQ"
  | .fieldList => "FIELDLIST"
  | .variantFieldList => "VFIELDLIST"
  | .variantList => "VARIANTLIST"
  | .variant => "VARIANT"
  | .formalParameterList => "FPARAMLIST"
  | .valueParameters => "FPARAMS"
  | .constantParameters => "CONSTP"
  | .variableParameters => "VARP"
  | .argumentList => "ARGLIST"
  | .castParameter => "CASTP"
  | .openArray => "OPENARRAY"
  | .statementSequence => "STMTSEQ"
  | .assignment => "ASSIGN"
  | .procedureCall => "PCALL"
  | .ifStatement => "IF"
  | .elsifList => "ELSIFLIST"
  | .elsifBranch => "ELSIF"
  | .caseStatement => "CASE"
  | .caseList => "CASELIST"
  | .caseBranch => "CASEBRANCH"
  | .caseLabelList => "CLABELLIST"
  | .range => "RANGE"
  | .loopStatement => "LOOP"
  | .whileStatement => "WHILE"
  | .repeatStatement => "REPEAT"
  | .forStatement => "FOR"
  | .returnStatement => "RETURN"
  | .exitStatement => "EXIT"
  | .equal => "EQ"
  | .notEqual => "NEQ"
  | .less => "LT"
  | .lessOrEqual => "LTEQ"
  | .greater => "GT"
  | .greaterOrEqual => "GTEQ"
  | .identity => "IDTY"
  | .isIn => "IN"
  | .plus => "PLUS"
  | .minus => "MINUS"
  | .or => "OR"
  | .times => "MUL"
  | .divide => "DIVIDE"
  | .div => "DIV"
  | .mod => "MOD"
  | .and => "AND"
  | .negation => "NEG"
  | .not => "NOT"
  | .typeConversion => "TYPECONV"
  | .functionCall => "FCALL"
  | .arguments => "ARGS"
  | .field => "FIELD"
  | .subscript => "INDEX"
  | .dereference => "DEREF"
  | .structuredValue => "STRUCTVAL"
  | .expressionList => "EXPRLIST"
  | .ident => "IDENT"
  | .identList => "IDENTLIST"
  | .wholeValue => "INTVAL"
  | .realValue => "REALVAL"
  | .characterValue => "CHRVAL"
  | .quotedValue => "QUOTEDVAL"

instance : ToString Kind := ⟨name⟩

/-- The kind of a canonical name. -/
def ofName? (text : String) : Option Kind := all.find? fun k => k.name == text

end Kind

end Modula
