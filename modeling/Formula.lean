import Formula.Assignment
import Formula.Binary64.Arithmetic
import Formula.Binary64.Basic
import Formula.Binary64.Decimal
import Formula.Binary64.Shortest
import Formula.Command
import Formula.Compile
import Formula.Engine
import Formula.Escape
import Formula.Evaluation
import Formula.Expr
import Formula.Expr.Chain
import Formula.Expr.Constant
import Formula.Expr.OfPhrase
import Formula.Failure
import Formula.Function
import Formula.Function.Math
import Formula.Listing
import Formula.Literal
import Formula.Main
import Formula.NameMap
import Formula.Nesting
import Formula.Numeral
import Formula.Operation
import Formula.Operator
import Formula.Parser
import Formula.Phrase
import Formula.Phrase.Reading
import Formula.Proofs.ArithmeticResults
import Formula.Proofs.AssignedNames
import Formula.Proofs.BareTree
import Formula.Proofs.BlanksBetween
import Formula.Proofs.BracketAgreement
import Formula.Proofs.BracketScan
import Formula.Proofs.BracketTokens
import Formula.Proofs.CallOrder
import Formula.Proofs.CoherentComparisons
import Formula.Proofs.DepthLimit
import Formula.Proofs.EscapeSpellings
import Formula.Proofs.EscapedText
import Formula.Proofs.ExactComparison
import Formula.Proofs.ExtremeArguments
import Formula.Proofs.FailurePlaces
import Formula.Proofs.FaultyNode
import Formula.Proofs.FiniteNumbers
import Formula.Proofs.Grammar
import Formula.Proofs.GrammarComplete
import Formula.Proofs.GrammarSound
import Formula.Proofs.IndexedCharacters
import Formula.Proofs.Indexing
import Formula.Proofs.InputLines
import Formula.Proofs.IntegerLiterals
import Formula.Proofs.IntegerTexts
import Formula.Proofs.JoinedTexts
import Formula.Proofs.LaidText
import Formula.Proofs.Lexing
import Formula.Proofs.LikeText
import Formula.Proofs.LiteralHeads
import Formula.Proofs.LiteralText
import Formula.Proofs.LoneTokens
import Formula.Proofs.MarkedText
import Formula.Proofs.NarrowedTexts
import Formula.Proofs.NearestNumbers
import Formula.Proofs.NestingBound
import Formula.Proofs.NodeOrder
import Formula.Proofs.NodeText
import Formula.Proofs.NumberLiterals
import Formula.Proofs.NumberText
import Formula.Proofs.NumericValues
import Formula.Proofs.NumericVariables
import Formula.Proofs.OpenBrackets
import Formula.Proofs.Operators
import Formula.Proofs.Outcomes
import Formula.Proofs.Parentheses
import Formula.Proofs.PhraseRows
import Formula.Proofs.PlacedArithmetic
import Formula.Proofs.Precedence
import Formula.Proofs.PrintedNumbers
import Formula.Proofs.QuotedLiterals
import Formula.Proofs.ReaderMarks
import Formula.Proofs.ReaderOutcomes
import Formula.Proofs.ReaderPlaces
import Formula.Proofs.Recast
import Formula.Proofs.RecastTree
import Formula.Proofs.RegisteredNames
import Formula.Proofs.RenamedText
import Formula.Proofs.Renaming
import Formula.Proofs.RenderedText
import Formula.Proofs.Rendering
import Formula.Proofs.RoundTrip
import Formula.Proofs.RoundedFractions
import Formula.Proofs.RoundedIntegers
import Formula.Proofs.RoundedPlaces
import Formula.Proofs.SessionHistory
import Formula.Proofs.ShiftedTokens
import Formula.Proofs.ShortestDigits
import Formula.Proofs.SourcePlaces
import Formula.Proofs.TokenLimit
import Formula.Proofs.TokenText
import Formula.Proofs.TreeDepth
import Formula.Proofs.TreeNames
import Formula.Proofs.TreePlaces
import Formula.Proofs.UsedNames
import Formula.Proofs.Variables
import Formula.Proofs.WidenedText
import Formula.Proofs.YieldedValues
import Formula.Report
import Formula.Session
import Formula.Span
import Formula.Text.Lines
import Formula.Text.Utf8
import Formula.Token
import Formula.Trace
import Formula.Unicode.Alphabetic
import Formula.Unicode.Blank
import Formula.Unicode.Graphic
import Formula.Unicode.Letter
import Formula.Unicode.Number
import Formula.Unicode.Ranges
import Formula.Unicode.Width
