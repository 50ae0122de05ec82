/-!
# The token vocabulary

Every terminal symbol of the language, with the symbols that stand for text no rule accepts.
The tokens are listed class by class, so that most classes are intervals of the listing and
the position of a token in it (`Token.index`) serves as its place in a token set.
-/

namespace Modula

/-- A terminal symbol of the grammar. -/
inductive Token where
  -- the reserved words
  | kwAlias | kwAnd | kwArglist | kwArray | kwBegin | kwBy | kwCase | kwCast | kwConst
  | kwDefinition | kwDiv | kwDo | kwElse | kwElsif | kwEnd | kwExit | kwFor | kwFrom | kwIf
  | kwImplementation | kwImport | kwIn | kwLoop | kwMod | kwModule | kwNot | kwOf | kwOpaque
  | kwOr | kwPointer | kwProcedure | kwRecord | kwRepeat | kwReturn | kwSet | kwThen | kwTo
  | kwType | kwUntil | kwVar | kwWhile
  -- identifiers
  | stdIdent | foreignIdent
  -- literals
  | wholeNumber | realNumber | charCode | quotedString
  -- punctuation
  | dot | comma | colon | semicolon | bar | dotDot | assign
  -- paired delimiters
  | lParen | rParen | lBracket | rBracket | lBrace | rBrace
  -- operators of level 1
  | equal | notEqual | less | lessOrEqual | greater | greaterOrEqual | identity
  -- operators of levels 2, 3, 5 and 6
  | plus | minus | asterisk | solidus | typeConv | deref
  -- the end of the source
  | endOfFile
  -- symbols the grammar never sees
  | lineComment | blockComment | pragma
  -- malformed symbols
  | malformedIdent | malformedNumber | malformedString | malformedComment | malformedPragma
  -- no symbol at all
  | unknown
deriving DecidableEq, Repr

namespace Token

/-- Every token, in the order of the listing. -/
def all : List Token :=
  [.kwAlias, .kwAnd, .kwArglist, .kwArray, .kwBegin, .kwBy, .kwCase, .kwCast, .kwConst,
   .kwDefinition, .kwDiv, .kwDo, .kwElse, .kwElsif, .kwEnd, .kwExit, .kwFor, .kwFrom, .kwIf,
   .kwImplementation, .kwImport, .kwIn, .kwLoop, .kwMod, .kwModule, .kwNot, .kwOf, .kwOpaque,
   .kwOr, .kwPointer, .kwProcedure, .kwRecord, .kwRepeat, .kwReturn, .kwSet, .kwThen, .kwTo,
   .kwType, .kwUntil, .kwVar, .kwWhile, .stdIdent, .foreignIdent, .wholeNumber, .realNumber,
   .charCode, .quotedString, .dot, .comma, .colon, .semicolon, .bar, .dotDot, .assign, .lParen,
   .rParen, .lBracket, .rBracket, .lBrace, .rBrace, .equal, .notEqual, .less, .lessOrEqual,
   .greater, .greaterOrEqual, .identity, .plus, .minus, .asterisk, .solidus, .typeConv, .deref,
   .endOfFile, .lineComment, .blockComment, .pragma, .malformedIdent, .malformedNumber,
   .malformedString, .malformedComment, .malformedPragma, .unknown]

/-- How many tokens there are. -/
def count : Nat := all.length

/-- The place of a token in the listing, counted from 0. -/
def index (t : Token) : Nat := t.ctorIdx

/-- The token at a place of the listing. -/
def ofIndex? (i : Nat) : Option Token := all[i]?

/-- The listing holds each token at its own place. -/
@[simp]
theorem ofIndex?_index (t : Token) : ofIndex? t.index = some t := by
  cases t <;> rfl

theorem index_lt_count (t : Token) : t.index < count := by
  cases t <;> decide

theorem index_inj {s t : Token} : s.index = t.index ↔ s = t := by
  constructor
  · intro h
    have hs := ofIndex?_index s
    rw [h, ofIndex?_index t] at hs
    exact (Option.some.inj hs).symm
  · rintro rfl
    rfl

theorem mem_all (t : Token) : t ∈ all :=
  List.mem_of_getElem? (ofIndex?_index t)

/-- What is said of all tokens can be checked one by one. -/
instance (p : Token → Prop) [DecidablePred p] : Decidable (∀ t, p t) :=
  decidable_of_iff (∀ t ∈ all, p t) ⟨fun h t => h t (mem_all t), fun h t _ => h t⟩

/-- Every place of the listing is that of a token. -/
theorem exists_index_eq {i : Nat} (h : i < count) : ∃ t : Token, t.index = i := by
  have : ∀ i : Fin count, ∃ t : Token, t ∈ all ∧ t.index = i.val := by decide
  obtain ⟨t, _, ht⟩ := this ⟨i, h⟩
  exact ⟨t, ht⟩

/-! ## Classes -/

/-- The tokens from `first` to `last` of the listing, both included. -/
def isBetween (first last t : Token) : Bool :=
  first.index ≤ t.index && t.index ≤ last.index

/-- A reserved word. -/
def isReservedWord (t : Token) : Bool := isBetween kwAlias kwWhile t

/-- A well-formed identifier, of either spelling. -/
def isIdentifier (t : Token) : Bool := isBetween stdIdent foreignIdent t

/-- A number, a character code or a quoted string. -/
def isLiteral (t : Token) : Bool := isBetween wholeNumber quotedString t

/-- A literal that is written with digits. -/
def isNumberLiteral (t : Token) : Bool := isBetween wholeNumber charCode t

/-- Punctuation, a delimiter or an operator that is no reserved word. -/
def isSpecialSymbol (t : Token) : Bool := isBetween dot deref t

/-- A comment of either form. -/
def isComment (t : Token) : Bool := t == lineComment || t == blockComment

/-- A pragma. -/
def isPragma (t : Token) : Bool := t == pragma

/-- Text that starts like a symbol of some class and breaks the rules of that class. -/
def isMalformed (t : Token) : Bool := isBetween malformedIdent malformedPragma t

/-- Comments and pragmas, the malformed ones included: the grammar never sees them. -/
def isTrivia (t : Token) : Bool :=
  isBetween lineComment pragma t || t == malformedComment || t == malformedPragma

/-- Symbols whose text is not settled by the token alone. -/
def hasLexeme (t : Token) : Bool :=
  isBetween stdIdent quotedString t || isBetween lineComment malformedPragma t

/-- How tightly an operator binds, from 1 for the relations to 6 for dereference. -/
def operatorLevel? : Token → Option Nat
  | equal | notEqual | less | lessOrEqual | greater | greaterOrEqual | identity | kwIn => some 1
  | plus | minus | kwOr => some 2
  | asterisk | solidus | kwDiv | kwMod | kwAnd => some 3
  | kwNot => some 4
  | typeConv => some 5
  | deref => some 6
  | _ => none

/-- The token is an operator of the given level. -/
def isOperatorAt (level : Nat) (t : Token) : Bool := t.operatorLevel? == some level

/-! ## Spelling -/

/-- The name a listing of symbols gives a token; a reserved word is its own name. -/
def name : Token → String
  | .kwAlias => "ALIAS"
  | .kwAnd => "AND"
  | .kwArglist => "ARGLIST"
  | .kwArray => "ARRAY"
  | .kwBegin => "BEGIN"
  | .kwBy => "BY"
  | .kwCase => "CASE"
  | .kwCast => "CAST"
  | .kwConst => "CONST"
  | .kwDefinition => "DEFINITION"
  | .kwDiv => "DIV"
  | .kwDo => "DO"
  | .kwElse => "ELSE"
  | .kwElsif => "ELSIF"
  | .kwEnd => "END"
  | .kwExit => "EXIT"
  | .kwFor => "FOR"
  | .kwFrom => "FROM"
  | .kwIf => "IF"
  | .kwImplementation => "IMPLEMENTATION"
  | .kwImport => "IMPORT"
  | .kwIn => "IN"
  | .kwLoop => "LOOP"
  | .kwMod => "MOD"
  | .kwModule => "MODULE"
  | .kwNot => "NOT"
  | .kwOf => "OF"
  | .kwOpaque => "OPAQUE"
  | .kwOr => "OR"
  | .kwPointer => "POINTER"
  | .kwProcedure => "PROCEDURE"
  | .kwRecord => "RECORD"
  | .kwRepeat => "REPEAT"
  | .kwReturn => "RETURN"
  | .kwSet => "SET"
  | .kwThen => "THEN"
  | .kwTo => "TO"
  | .kwType => "TYPE"
  | .kwUntil => "UNTIL"
  | .kwVar => "VAR"
  | .kwWhile => "WHILE"
  | .stdIdent => "STDIDENT"
  | .foreignIdent => "FOREIGNIDENT"
  | .wholeNumber => "WHOLENUM"
  | .realNumber => "REALNUM"
  | .charCode => "CHARCODE"
  | .quotedString => "QUOTEDSTR"
  | .dot => "DOT"
  | .comma => "COMMA"
  | .colon => "COLON"
  | .semicolon => "SEMICOLON"
  | .bar => "BAR"
  | .dotDot => "DOTDOT"
  | .assign => "ASSIGN"
  | .lParen => "LPAREN"
  | .rParen => "RPAREN"
  | .lBracket => "LBRACKET"
  | .rBracket => "RBRACKET"
  | .lBrace => "LBRACE"
  | .rBrace => "RBRACE"
  | .equal => "EQUAL"
  | .notEqual => "NOTEQUAL"
  | .less => "LESS"
  | .lessOrEqual => "LESSEQ"
  | .greater => "GREATER"
  | .greaterOrEqual => "GREATEREQ"
  | .identity => "IDENTITY"
  | .plus => "PLUS"
  | .minus => "MINUS"
  | .asterisk => "ASTERISK"
  | .solidus => "SOLIDUS"
  | .typeConv => "TYPECONV"
  | .deref => "DEREF"
  | .endOfFile => "EOF"
  | .lineComment => "LINECOMMENT"
  | .blockComment => "BLOCKCOMMENT"
  | .pragma => "PRAGMA"
  | .malformedIdent => "MALFORMED_IDENT"
  | .malformedNumber => "MALFORMED_NUMBER"
  | .malformedString => "MALFORMED_STRING"
  | .malformedComment => "MALFORMED_COMMENT"
  | .malformedPragma => "MALFORMED_PRAGMA"
  | .unknown => "UNKNOWN"

instance : ToString Token := ⟨name⟩

/-- The spelling of a special symbol. -/
def specialSpelling? : Token → Option String
  | .dot => some "."
  | .comma => some ","
  | .colon => some ":"
  | .semicolon => some ";"
  | .bar => some "|"
  | .dotDot => some ".."
  | .assign => some ":="
  | .lParen => some "("
  | .rParen => some ")"
  | .lBracket => some "["
  | .rBracket => some "]"
  | .lBrace => some "\x7b"
  | .rBrace => some "\x7d"
  | .equal => some "="
  | .notEqual => some "#"
  | .less => some "<"
  | .lessOrEqual => some "<="
  | .greater => some ">"
  | .greaterOrEqual => some ">="
  | .identity => some "=="
  | .plus => some "+"
  | .minus => some "-"
  | .asterisk => some "*"
  | .solidus => some "/"
  | .typeConv => some "::"
  | .deref => some "^"
  | _ => none

/-- The one spelling of a token, where the token alone settles it. -/
def spelling? (t : Token) : Option String :=
  if t.isReservedWord then some t.name else t.specialSpelling?

/-- A word for the class of a token that has no fixed spelling. -/
def className : Token → String
  | stdIdent | foreignIdent => "identifier"
  | wholeNumber => "whole number"
  | realNumber => "real number"
  | charCode => "character code"
  | quotedString => "quoted string"
  | endOfFile => "end of file"
  | lineComment | blockComment => "comment"
  | pragma => "pragma"
  | malformedIdent => "malformed ident"
  | malformedNumber => "malformed number"
  | malformedString => "malformed string"
  | malformedComment => "malformed comment"
  | malformedPragma => "malformed pragma"
  | _ => "unknown"

/-- How a message speaks of a token: by its spelling in backquotes, or by its class. -/
def describe (t : Token) : String :=
  match t.spelling? with
  | some text => s!"`{text}`"
  | none => t.className

/-- The reserved words with their tokens, sorted by spelling. -/
def reservedWords : Array (String × Token) :=
  #[("ALIAS", .kwAlias), ("AND", .kwAnd), ("ARGLIST", .kwArglist), ("ARRAY", .kwArray),
    ("BEGIN", .kwBegin), ("BY", .kwBy), ("CASE", .kwCase), ("CAST", .kwCast), ("CONST", .kwConst),
    ("DEFINITION", .kwDefinition), ("DIV", .kwDiv), ("DO", .kwDo), ("ELSE", .kwElse),
    ("ELSIF", .kwElsif), ("END", .kwEnd), ("EXIT", .kwExit), ("FOR", .kwFor), ("FROM", .kwFrom),
    ("IF", .kwIf), ("IMPLEMENTATION", .kwImplementation), ("IMPORT", .kwImport), ("IN", .kwIn),
    ("LOOP", .kwLoop), ("MOD", .kwMod), ("MODULE", .kwModule), ("NOT", .kwNot), ("OF", .kwOf),
    ("OPAQUE", .kwOpaque), ("OR", .kwOr), ("POINTER", .kwPointer), ("PROCEDURE", .kwProcedure),
    ("RECORD", .kwRecord), ("REPEAT", .kwRepeat), ("RETURN", .kwReturn), ("SET", .kwSet),
    ("THEN", .kwThen), ("TO", .kwTo), ("TYPE", .kwType), ("UNTIL", .kwUntil), ("VAR", .kwVar),
    ("WHILE", .kwWhile)]

/-- The token of a text among the words from place `low` up to place `high`, by halving. -/
def findBetween (words : Array (String × Token)) (text : String) (low high : Nat) :
    Option Token :=
  if low < high then
    let middle := low + (high - low) / 2
    match words[middle]? with
    | none => none
    | some (word, t) =>
      match compare word text with
      | .eq => some t
      | .lt => findBetween words text (middle + 1) high
      | .gt => findBetween words text low middle
  else none
termination_by high - low

/-- The reserved word that is spelled exactly so. -/
def reservedWord? (text : String) : Option Token :=
  findBetween reservedWords text 0 reservedWords.size

/-- The special symbol that is spelled exactly so. -/
def specialSymbol? (text : String) : Option Token :=
  all.find? fun t => t.specialSpelling? == some text

end Token

end Modula
