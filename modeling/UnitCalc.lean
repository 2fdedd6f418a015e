import UnitCalc.Bindings
import UnitCalc.Builtin
import UnitCalc.CommandLine
import UnitCalc.Environment
import UnitCalc.EvalError
import UnitCalc.Evaluation
import UnitCalc.Expr
import UnitCalc.Expr.Parse
import UnitCalc.Journal
import UnitCalc.Main
import UnitCalc.Measure
import UnitCalc.Number.Exact
import UnitCalc.Number.Integer
import UnitCalc.Number.Shortest
import UnitCalc.Number.Text
import UnitCalc.Operator
import UnitCalc.Session
import UnitCalc.Text.Base64
import UnitCalc.Text.Blank
import UnitCalc.Text.Bytes
import UnitCalc.Text.Lines
import UnitCalc.Text.Quoted
import UnitCalc.Token
import UnitCalc.Token.Lexeme
import UnitCalc.Token.Scan
import UnitCalc.Value
import UnitCalc.Value.Arithmetic
import UnitCalc.Value.Comparison
import UnitCalc.Value.Conversion
import UnitCalc.Proofs.Scoping
import UnitCalc.Proofs.Grammar.Phrase
import UnitCalc.Proofs.Grammar.Reading
import UnitCalc.Proofs.Grammar.Sound
import UnitCalc.Proofs.Grammar.Complete
import UnitCalc.Proofs.Grammar.Predictive
import UnitCalc.Proofs.Grammar.Behaviour
import UnitCalc.Proofs.Grammar.EarliestError
import UnitCalc.Proofs.Evaluation.Discipline
import UnitCalc.Proofs.Grammar.Spelling
import UnitCalc.Proofs.Grammar.Unparse
import UnitCalc.Proofs.Token.Words
import UnitCalc.Proofs.Session.Reached
import UnitCalc.Proofs.Session.WellFormed
import UnitCalc.Proofs.Session.Purity
import UnitCalc.Proofs.Token.Pieces
import UnitCalc.Proofs.Token.LongestMatch
import UnitCalc.Proofs.Token.Scanned
import UnitCalc.Proofs.Session.Chains
import UnitCalc.Proofs.Evaluation.Termination
import UnitCalc.Proofs.Evaluation.Coupling
import UnitCalc.Proofs.Evaluation.Noninterference
import UnitCalc.Proofs.Evaluation.CallDepth
import UnitCalc.Proofs.Evaluation.LeadingUnit
import UnitCalc.Proofs.Base64.Canonical
import UnitCalc.Proofs.Base64.Decoding
import UnitCalc.Proofs.Session.Strictness
import UnitCalc.Proofs.Token.Separation
import UnitCalc.Proofs.Token.Numerals
import UnitCalc.Proofs.Session.Dialogue
import UnitCalc.Proofs.Number.Binary64
import UnitCalc.Proofs.Number.Rounding
import UnitCalc.Proofs.Number.Order
import UnitCalc.Proofs.Number.Nearest
import UnitCalc.Proofs.Number.DigitGroups
import UnitCalc.Proofs.Number.ShortestDecimal
import UnitCalc.Proofs.Number.RealText
import UnitCalc.Proofs.Text.ByteOrder
import UnitCalc.Proofs.Value.IntegerArithmetic
import UnitCalc.Proofs.Value.ExactRange
import UnitCalc.Proofs.Value.ExactOrder
import UnitCalc.Proofs.Value.QuantityOrder
import UnitCalc.Proofs.Value.Repetition
import UnitCalc.Proofs.Session.ExactRange
import UnitCalc.Proofs.Session.Piecewise
import UnitCalc.Proofs.Number.Patterns
import UnitCalc.Proofs.Value.Reclassification
