import Mathlib.Computability.Language
import Modula.Grammar.Declaration
import Modula.Lexical.Symbol

/-!
# The grammar of the language

The grammar as it is documented, in extended Backus-Naur form, and the sentences it derives. It
comes in dialects. The form of record types is one choice. The other is whether the grammar is
taken strictly, or with the tolerance that only reports of missing symbols are counted against a
source: the tolerant dialect has empty sequences and spare semicolons, opaque types everywhere,
closing identifiers of any spelling, and malformed symbols in the place of well-formed ones.
-/

namespace Modula

/-- A nonterminal of the grammar. -/
inductive Nonterminal where
  | compilationUnit | definitionModule | programModule | importClause | block
  | definition | declaration | constantDefinition | typeDefinition (part : Grammar.Part)
  | variableDeclaration | procedureDeclaration | signature | formalParameters | formalType
  | type | subrangeType | enumType | setType | arrayType | recordType | pointerType
  | procedureType | fieldListSequence | fieldList | variantFieldList | variant
  | statementSequence | statement | assignmentOrCall | ifStatement | caseStatement | caseBranch
  | loopStatement | whileStatement | repeatStatement | forStatement | caseLabelList
  | expression | simpleExpression | term | simpleTerm | factor | simpleFactor | structuredValue
  | valueComponent | designator | actualParameters | expressionList | identList | qualident
deriving DecidableEq, Repr

/-- An expression of the grammar. -/
inductive Ebnf where
  /-- One of the tokens. -/
  | oneOf (first : Token) (others : List Token)
  /-- An identifier, spelled so if a text is given. -/
  | ident (text? : Option String)
  /-- Nothing. -/
  | empty
  /-- One thing and then another. -/
  | seq (a b : Ebnf)
  /-- One thing or another. -/
  | either (a b : Ebnf)
  /-- `{ a }` -/
  | many (a : Ebnf)
  /-- What the nonterminal stands for. -/
  | rule (n : Nonterminal)
  /-- An identifier, something else, and an identifier again, which may have to be spelled like the
  first one. -/
  | closed (spelled : Bool) (body : Ebnf)
deriving DecidableEq, Repr

namespace Ebnf

/-- The token alone. -/
def word (t : Token) : Ebnf := oneOf t []

/-- `[ a ]` -/
def option (a : Ebnf) : Ebnf := either empty a

/-- One thing behind the other. -/
def chain : List Ebnf → Ebnf
  | [] => empty
  | [a] => a
  | a :: b :: more => seq a (chain (b :: more))

/-- One of several things. -/
def anyOf (a : Ebnf) : List Ebnf → Ebnf
  | [] => a
  | b :: more => either a (anyOf b more)

/-- `a { separator a }` -/
def list (separator : Token) (a : Ebnf) : Ebnf := seq a (many (seq (word separator) a))

end Ebnf

/-- A form of the grammar. -/
structure Dialect where
  records : RecordGrammar
  isTolerant : Bool
deriving DecidableEq, Repr

/-- The well-formed token that a malformed one stands for. -/
def Token.mended : Token → Token
  | malformedIdent => stdIdent
  | malformedNumber => wholeNumber
  | malformedString => quotedString
  | t => t

/-- A token can be read as one of those listed: it is one, or it stands for one. -/
def Dialect.Reads (d : Dialect) (ts : List Token) (t : Token) : Prop :=
  t ∈ ts ∨ (d.isTolerant = true ∧ t.mended ∈ ts)

/-- The tokens of identifiers. -/
def identifiers : List Token := [.stdIdent, .foreignIdent]

namespace Ebnf

/-- `a { separator a }`; the tolerant dialect has a spare separator at the end. -/
def spareList (d : Dialect) (separator : Token) (a : Ebnf) : Ebnf :=
  if d.isTolerant then seq (list separator a) (option (word separator)) else list separator a

/-- `a { ";" a }`; in the tolerant dialect there may be nothing, and a spare semicolon. -/
def sequence (d : Dialect) (a : Ebnf) : Ebnf :=
  if d.isTolerant then option (spareList d .semicolon a) else spareList d .semicolon a

/-- An identifier, something else, and the identifier again. -/
def named (d : Dialect) (body : Ebnf) : Ebnf := closed (!d.isTolerant) body

end Ebnf

open Ebnf in
/-- The productions of the grammar. -/
def production (d : Dialect) : Nonterminal → Ebnf
  -- compilation units
  | .compilationUnit => anyOf (rule .definitionModule) [rule .programModule]
  | .definitionModule =>
    chain [word .kwDefinition, word .kwModule,
      named d (chain [word .semicolon, many (rule .importClause), many (rule .definition),
        word .kwEnd]),
      word .dot]
  | .programModule =>
    chain [option (word .kwImplementation), word .kwModule,
      named d (chain [word .semicolon, many (rule .importClause), rule .block]), word .dot]
  | .importClause =>
    anyOf (chain [word .kwImport, list .comma (ident none), word .semicolon])
      [chain [word .kwFrom, ident none, word .kwImport, rule .identList, word .semicolon]]
  | .block =>
    chain [many (rule .declaration), option (chain [word .kwBegin, rule .statementSequence]),
      word .kwEnd]
  -- definitions and declarations
  | .definition =>
    anyOf (seq (word .kwConst) (many (seq (rule .constantDefinition) (word .semicolon))))
      [seq (word .kwType) (many (seq (rule (.typeDefinition .definitions)) (word .semicolon))),
        seq (word .kwVar) (many (seq (rule .variableDeclaration) (word .semicolon))),
        chain [word .kwProcedure, ident none, rule .signature, word .semicolon]]
  | .declaration =>
    anyOf (seq (word .kwConst) (many (seq (rule .constantDefinition) (word .semicolon))))
      [seq (word .kwType) (many (seq (rule (.typeDefinition .declarations)) (word .semicolon))),
        seq (word .kwVar) (many (seq (rule .variableDeclaration) (word .semicolon))),
        rule .procedureDeclaration]
  | .constantDefinition => chain [ident none, word .equal, rule .expression]
  | .typeDefinition part =>
    chain [ident none, word .equal,
      if d.isTolerant ∨ part = .definitions then either (word .kwOpaque) (rule .type)
      else rule .type]
  | .variableDeclaration => chain [rule .identList, word .colon, rule .type]
  | .procedureDeclaration =>
    chain [word .kwProcedure,
      named d (chain [rule .signature, word .semicolon, rule .block]), word .semicolon]
  | .signature =>
    chain [
      option (chain [word .lParen,
        option (spareList d .semicolon (rule .formalParameters)), word .rParen]),
      option (chain [word .colon, rule .qualident])]
  | .formalParameters =>
    chain [option (oneOf .kwConst [.kwVar]), rule .identList, word .colon, rule .formalType]
  | .formalType =>
    chain [option (either (chain [word .kwArglist, word .kwOf]) (word .kwCast)),
      option (chain [word .kwArray, word .kwOf]), rule .qualident]
  -- types
  | .type =>
    anyOf (chain [word .kwAlias, word .kwOf, rule .qualident])
      [rule .qualident, rule .subrangeType, rule .enumType, rule .setType, rule .arrayType,
        rule .recordType, rule .pointerType, rule .procedureType]
  | .subrangeType =>
    chain [word .lBracket, rule .expression, word .dotDot, rule .expression, word .rBracket,
      option (chain [word .kwOf, rule .qualident])]
  | .enumType =>
    chain [word .lParen, option (chain [word .plus, rule .qualident, word .comma]),
      rule .identList, word .rParen]
  | .setType => chain [word .kwSet, word .kwOf, either (rule .qualident) (rule .enumType)]
  | .arrayType =>
    chain [word .kwArray, rule .expressionList, word .kwOf, rule .type]
  | .recordType =>
    match d.records with
    | .variant => chain [word .kwRecord, rule .fieldListSequence, word .kwEnd]
    | .extensible =>
      chain [word .kwRecord, option (chain [word .lParen, rule .qualident, word .rParen]),
        rule .fieldListSequence, word .kwEnd]
  | .pointerType => chain [word .kwPointer, word .kwTo, rule .type]
  | .procedureType =>
    chain [word .kwProcedure,
      option (chain [word .lParen, option (list .comma (rule .formalType)), word .rParen]),
      option (chain [word .colon, rule .qualident])]
  -- fields
  | .fieldListSequence => sequence d (rule .fieldList)
  | .fieldList =>
    match d.records with
    | .variant =>
      either (chain [rule .identList, word .colon, rule .type]) (rule .variantFieldList)
    | .extensible => chain [rule .identList, word .colon, rule .type]
  | .variantFieldList =>
    chain [word .kwCase, option (ident none), word .colon, rule .qualident, word .kwOf,
      option (word .bar), list .bar (rule .variant),
      option (chain [word .kwElse, rule .fieldListSequence]), word .kwEnd]
  | .variant => chain [rule .caseLabelList, word .colon, rule .fieldListSequence]
  -- statements
  | .statementSequence => sequence d (rule .statement)
  | .statement =>
    anyOf (rule .assignmentOrCall)
      [rule .ifStatement, rule .caseStatement, rule .loopStatement, rule .whileStatement,
        rule .repeatStatement, rule .forStatement,
        chain [word .kwReturn, option (rule .expression)], word .kwExit]
  | .assignmentOrCall =>
    chain [rule .designator,
      option (either (chain [word .assign, rule .expression]) (rule .actualParameters))]
  | .ifStatement =>
    chain [word .kwIf, rule .expression, word .kwThen, rule .statementSequence,
      many (chain [word .kwElsif, rule .expression, word .kwThen, rule .statementSequence]),
      option (chain [word .kwElse, rule .statementSequence]), word .kwEnd]
  | .caseStatement =>
    chain [word .kwCase, rule .expression, word .kwOf,
      option (seq (option (word .bar)) (list .bar (rule .caseBranch))),
      option (chain [word .kwElse, rule .statementSequence]), word .kwEnd]
  | .caseBranch => chain [rule .caseLabelList, word .colon, rule .statementSequence]
  | .loopStatement => chain [word .kwLoop, rule .statementSequence, word .kwEnd]
  | .whileStatement =>
    chain [word .kwWhile, rule .expression, word .kwDo, rule .statementSequence, word .kwEnd]
  | .repeatStatement =>
    chain [word .kwRepeat, rule .statementSequence, word .kwUntil, rule .expression]
  | .forStatement =>
    chain [word .kwFor, ident none, word .assign, rule .expression, word .kwTo, rule .expression,
      option (chain [word .kwBy, rule .expression]), word .kwDo, rule .statementSequence,
      word .kwEnd]
  | .caseLabelList => list .comma (rule .valueComponent)
  -- expressions
  | .expression =>
    seq (rule .simpleExpression)
      (option (seq
        (oneOf .equal [.notEqual, .less, .lessOrEqual, .greater, .greaterOrEqual, .identity, .kwIn])
        (rule .simpleExpression)))
  | .simpleExpression =>
    chain [option (oneOf .plus [.minus]), rule .term,
      many (seq (oneOf .plus [.minus, .kwOr]) (rule .term))]
  | .term =>
    seq (rule .simpleTerm)
      (many (seq (oneOf .asterisk [.solidus, .kwDiv, .kwMod, .kwAnd]) (rule .simpleTerm)))
  | .simpleTerm => seq (option (word .kwNot)) (rule .factor)
  | .factor => seq (rule .simpleFactor) (option (chain [word .typeConv, rule .qualident]))
  | .simpleFactor =>
    anyOf (oneOf .wholeNumber [.realNumber, .charCode, .quotedString])
      [rule .structuredValue, seq (rule .designator) (option (rule .actualParameters)),
        chain [word .lParen, rule .expression, word .rParen]]
  | .structuredValue =>
    chain [word .lBrace, option (list .comma (rule .valueComponent)), word .rBrace]
  | .valueComponent =>
    seq (rule .expression) (option (chain [word .dotDot, rule .expression]))
  | .designator =>
    seq (ident none)
      (many (anyOf (chain [word .dot, ident none])
        [chain [word .lBracket, rule .expressionList, word .rBracket], word .deref]))
  | .actualParameters =>
    chain [word .lParen, option (rule .expressionList), word .rParen]
  | .expressionList => list .comma (rule .expression)
  -- names
  | .identList => list .comma (ident none)
  | .qualident => list .dot (ident none)

/-- The symbols that an expression of the grammar derives. -/
inductive Derives (d : Dialect) : Ebnf → List Symbol → Prop where
  | oneOf {t : Token} {ts : List Token} (s : Symbol) (h : d.Reads (t :: ts) s.token) :
    Derives d (.oneOf t ts) [s]
  | ident {text? : Option String} (s : Symbol) (h : d.Reads identifiers s.token)
    (htext : ∀ text ∈ text?, s.text = text) : Derives d (.ident text?) [s]
  | empty : Derives d .empty []
  | seq {a b : Ebnf} {u v : List Symbol} (ha : Derives d a u) (hb : Derives d b v) :
    Derives d (.seq a b) (u ++ v)
  | left {a b : Ebnf} {u : List Symbol} (h : Derives d a u) : Derives d (.either a b) u
  | right {a b : Ebnf} {u : List Symbol} (h : Derives d b u) : Derives d (.either a b) u
  | none {a : Ebnf} : Derives d (.many a) []
  | more {a : Ebnf} {u v : List Symbol} (ha : Derives d a u) (hm : Derives d (.many a) v) :
    Derives d (.many a) (u ++ v)
  | rule {n : Nonterminal} {u : List Symbol} (h : Derives d (production d n) u) :
    Derives d (.rule n) u
  | closed {spelled : Bool} {body : Ebnf} {u : List Symbol} (s t : Symbol)
    (hs : Derives d (.ident none) [s]) (hu : Derives d body u)
    (ht : Derives d (.ident (if spelled then some s.text else Option.none)) [t]) :
    Derives d (.closed spelled body) (s :: (u ++ [t]))

/-- The sentences of an expression of the grammar. -/
def Ebnf.language (d : Dialect) (a : Ebnf) : Language Symbol := {u | Derives d a u}

end Modula
