import ParserKit.Main
import ParserKit.Parser.Describe
import ParserKit.Parser.Entry
import ParserKit.Proofs.Outcome
import ParserKit.Proofs.Arith.Derivation
import ParserKit.Proofs.Arith.Soundness
import ParserKit.Proofs.Arith.Completeness
import ParserKit.Proofs.Arith.Reading
import ParserKit.Proofs.Pattern.Canonical
import ParserKit.Proofs.Pattern.Reading
import ParserKit.Proofs.Pattern.Binary
import ParserKit.Proofs.Pattern.Progress
import ParserKit.Proofs.Arith.Formula
import ParserKit.Proofs.Movement
import ParserKit.Proofs.Position
import ParserKit.Proofs.Observation
import ParserKit.Proofs.Pattern.Language
import ParserKit.Proofs.Pattern.Nesting
import ParserKit.Proofs.Pattern.EndlessStar
import ParserKit.Proofs.Arith.Answers
import ParserKit.Proofs.Steady
import ParserKit.Proofs.LongestFront
import ParserKit.Proofs.Pattern.Stopping
import ParserKit.Proofs.Arith.Stops
import ParserKit.Proofs.Tokens
import ParserKit.Proofs.Arith.Stopping
import ParserKit.Proofs.Arith.Layout
import ParserKit.Proofs.Lines
import ParserKit.Proofs.Arith.Spans
import ParserKit.Proofs.Arith.Places
import ParserKit.Proofs.Arith.Agreement
import ParserKit.Proofs.Arith.Settings
import ParserKit.Proofs.Guarded
import ParserKit.Proofs.Dependence
import ParserKit.Proofs.Ending
import ParserKit.Proofs.GrammarsEnd
import ParserKit.Proofs.Pattern.Gathering
import ParserKit.Proofs.Repetition
import ParserKit.Proofs.Arith.Numerals
import ParserKit.Proofs.Arith.Substitution
import ParserKit.Proofs.Arith.Names
import ParserKit.Proofs.Definitions
import ParserKit.Proofs.Lengths
import ParserKit.Proofs.SourceLines
import ParserKit.Proofs.ShownLines
import ParserKit.Proofs.Quoting
import ParserKit.Proofs.Outlines
import ParserKit.Proofs.OutlinedTrees
import ParserKit.Proofs.TreeCommand
import ParserKit.Proofs.Pattern.Laws
import ParserKit.Proofs.Arith.Orders
import ParserKit.Proofs.Pattern.PlainText
import ParserKit.Proofs.Colors
import ParserKit.Proofs.CheckedSettings
import ParserKit.Proofs.Blanks
import ParserKit.Proofs.Folds
import ParserKit.Proofs.ConfigSearch
import ParserKit.Proofs.Arith.Division
import ParserKit.Proofs.Except
import ParserKit.Proofs.Decimals
import ParserKit.Proofs.Stack
import ParserKit.Proofs.SteadyOnStack
import ParserKit.Proofs.Arith.Frames
import ParserKit.Proofs.Pattern.Frames
import ParserKit.Proofs.Overflow
import ParserKit.Proofs.Arith.Overflow
