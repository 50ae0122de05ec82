import Modula.Lexical.Window
import Modula.Main
import Modula.Text.Cursor
import Modula.Proofs.GathersRules
import Modula.Proofs.Outcome
import Modula.Proofs.Rendering
import Modula.Proofs.Scanner
import Modula.Proofs.Sentences
import Modula.Proofs.YieldsRules
import Modula.Proofs.Counts
import Modula.Proofs.CountsRules
import Modula.Proofs.LexicalFacts
import Modula.Proofs.Alike
import Modula.Proofs.AlikeRules
import Modula.Proofs.Indifference
import Modula.Proofs.Answers
import Modula.Proofs.AnswersRules
import Modula.Proofs.NestingLimit
import Modula.Proofs.Accurate
import Modula.Proofs.AccurateRules
import Modula.Proofs.Expectations
import Modula.Proofs.ReportPlaces
import Modula.Proofs.ErrantSeverity
import Modula.Proofs.Omissions
import Modula.Proofs.Bridges
import Modula.Proofs.BridgesRules
import Modula.Proofs.Parentheses
import Modula.Proofs.BridgesUnits
import Modula.Proofs.Neighbours
import Modula.Proofs.ParameterLists
import Modula.Proofs.Overwritten
import Modula.Proofs.MissingSeparator
import Modula.Proofs.KeptComments
import Modula.Proofs.SExpression
import Modula.Proofs.Depth
import Modula.Proofs.DepthRules
import Modula.Proofs.RecordGrammars
import Modula.Proofs.RecordGrammarsRules
import Modula.Proofs.StringTables
import Modula.Proofs.Requests
import Modula.Proofs.Counters
import Modula.Proofs.ManyFiles
import Modula.Proofs.Utf8Decoding
import Modula.Proofs.ShownLines
import Modula.Proofs.ExactReading
import Modula.Proofs.WrittenExpressions
import Modula.Proofs.ReadBack
import Modula.Proofs.LegibleTexts
import Modula.Proofs.Precedence
import Modula.Proofs.Arrivals
import Modula.Proofs.PlainNesting
import Modula.Proofs.LiteralFaults
import Modula.Proofs.MalformedSymbols
import Modula.Proofs.NumberGrammar
import Modula.Proofs.WordsAndNumbers
import Modula.Proofs.Apostrophes
import Modula.Proofs.Separators
import Modula.Proofs.Relocation
import Modula.Proofs.DisabledCode
import Modula.Proofs.Handles
import Modula.Proofs.Carets
import Modula.Proofs.Switches
import Modula.Proofs.Messages
import Modula.Proofs.Listings
import Modula.Proofs.Decoration
import Modula.Proofs.CursorMoves
import Modula.Proofs.CursorPositions
