import Modula.Grammar.Nested
import Modula.Grammar.Options

/-!
# Names and sequences

Identifiers, simple or qualified, and the lists of things with semicolons between them, which
occur in several parts of the grammar. Where a semicolon is missing in front of another thing of the
list, this is reported and the list goes on; one that is too many is reported and ends the list.
-/

namespace Modula.Grammar

open Modula.Parser

/-- A node for a list of parts, or the placeholder when there are none. -/
def listNode (kind : Kind) (parts : List Node) : Node :=
  if parts.isEmpty then .empty else .branch kind parts

/-- `[ word rule ]` -/
def optionalAt (word : Token) (rule : Parser Node) : Parser Node :=
  ifAt word (do advance; rule) (return .empty)

/-- `identList := ident { "," ident }` -/
def identList (resync : TokenSet) : Parser Node := do
  let idents ← separated .comma (ident (resync.insert .comma))
  return .branch .identList (idents.filter (!·.isEmpty))

/-- The parts of a qualified identifier behind `parts`, which holds the last one first. -/
def qualidentRound (resync : TokenSet) (parts : List Node) : Parser (Round (List Node)) :=
  ifAt .dot
    (do
      advance
      let part ← ident resync
      if part.isEmpty then return .done parts else return .more (part :: parts))
    (return .done parts)

/-- `qualident := ident { "." ident }`, where a single identifier is no list. -/
def qualident (resync : TokenSet) : Parser Node := do
  let first ← ident resync
  if first.isEmpty then return first
  else
    ifAt .dot
      (do
        let parts ← loop (qualidentRound resync) [first]
        return .branch .qualifiedIdent parts.reverse)
      (return first)

/-- A semicolon in front of the closing symbol that comes next. -/
def reportErrant (o : ParseOptions) (semicolon : Symbol) : Parser Unit := do
  report { faultAt .errantSemicolon semicolon with
    severity := o.errantSemicolon
    found := (← token) }

/-- One item of a list with semicolons, and the semicolon behind it. A semicolon in front of a
member of `closers` is errant and ends the list; a semicolon that is missing in front of a member
of `start` is reported, and the list goes on. -/
def semicolonRound (o : ParseOptions) (start closers : TokenSet) (item : Parser Node)
    (found : List Node) : Parser (Round (List Node)) := do
  let node ← item
  let found := if node.isEmpty then found else node :: found
  ifAt .semicolon
    (do
      let semicolon ← next
      ifAtAny closers
        (do reportErrant o semicolon; return .done found)
        (return .more found))
    (ifAtAny start
      (do unexpected (.token .semicolon); return .more found)
      (return .done found))

/-- `item { ";" item }`, without the items of which nothing could be read. -/
def semicolonList (o : ParseOptions) (start closers : TokenSet) (item : Parser Node) :
    Parser (List Node) :=
  List.reverse <$> loop (semicolonRound o start closers item) []

/-- An empty list where something was required: reported, and the place stays empty. -/
def missingItems (code : Code) : Parser Node := do
  report (faultBy code (← lookahead))
  return .empty

end Modula.Grammar
