import SolverScript.Script.OfIncrement
import SolverScript.Trace.Library
import SolverScript.Proofs.Encoding.Bits
import SolverScript.Proofs.Semantics.Constants
import SolverScript.Proofs.Encoding.Words
import SolverScript.Proofs.Semantics.Script
import SolverScript.Proofs.Script.Definitions
import SolverScript.Proofs.Problem.References
import SolverScript.Proofs.Script.Plan
import SolverScript.Proofs.Script.Declarations
import SolverScript.Proofs.Script.WordProgram
import SolverScript.Proofs.Script.Conclusion
import SolverScript.Proofs.Script.Inputs
import SolverScript.Proofs.Script.Environment
import SolverScript.Proofs.Script.QuantifierFree
import SolverScript.Proofs.Script.Quantified
import SolverScript.Proofs.Encoding.RangeCheck
import SolverScript.Proofs.Script.TableLookup
import SolverScript.Proofs.Encoding.Occurrence
import SolverScript.Proofs.Script.Occurrence
import SolverScript.Proofs.Script.UniversalScope
import SolverScript.Proofs.Kind.Order
import SolverScript.Proofs.Kind.Set
import SolverScript.Proofs.Kind.Closure
import SolverScript.Proofs.Script.LogicCoverage
import SolverScript.Proofs.Semantics.LiteralVocabulary
import SolverScript.Proofs.Encoding.Vocabulary
import SolverScript.Proofs.Semantics.Symbols
import SolverScript.Proofs.Script.EntityVocabulary
import SolverScript.Proofs.Script.Symbols
import SolverScript.Proofs.Script.SectionVocabulary
import SolverScript.Proofs.Script.DeclaredSymbols
import SolverScript.Proofs.Script.DeclareBeforeUse
import SolverScript.Proofs.Script.ArrayOrder
import SolverScript.Proofs.Script.Rendering
import SolverScript.Proofs.Script.CommandLines
import SolverScript.Proofs.Script.WholeCommands
import SolverScript.Proofs.Script.CompleteScripts
import SolverScript.Proofs.Script.FinalAssertions
import SolverScript.Proofs.Script.Increments
import SolverScript.Proofs.Script.Agreement
import SolverScript.Proofs.Script.Sessions
import SolverScript.Proofs.Script.WellFormedValues
import SolverScript.Proofs.Encoding.Failures
import SolverScript.Proofs.Script.Failures
import SolverScript.Proofs.Script.ElementaryCommands
import SolverScript.Proofs.Script.Reversals
import SolverScript.Proofs.Script.Partition
import SolverScript.Proofs.Script.Comments
import SolverScript.Proofs.Script.WellFormedConstants
import SolverScript.Proofs.Encoding.IntegralCasts
import SolverScript.Proofs.Trace.History
import SolverScript.Proofs.Script.CatchAll
import SolverScript.Proofs.Script.Invariants
import SolverScript.Proofs.Script.TesterForms
import SolverScript.Proofs.Value.BitVectors
import SolverScript.Proofs.Script.ReachableValues
import SolverScript.Proofs.Script.InvariantSorts
import SolverScript.Proofs.Script.RationalDefinitions
import SolverScript.Proofs.Encoding.Rationals
import SolverScript.Proofs.Text.Utf8
import SolverScript.Proofs.Value.QuotedText
import SolverScript.Proofs.Semantics.LiteralSorts
import SolverScript.Proofs.Value.LiteralMeaning
import SolverScript.Proofs.Script.TablePlaces
import SolverScript.Proofs.Script.Enumerations
import SolverScript.Proofs.Script.ConstructorOrder
import SolverScript.Proofs.Problem.Features
import SolverScript.Proofs.Semantics.Sequences
import SolverScript.Proofs.Script.ReversalMeaning
import SolverScript.Proofs.Semantics.Floats
import SolverScript.Proofs.Semantics.Numbers
import SolverScript.Proofs.Encoding.PseudoBoolean
import SolverScript.Proofs.Encoding.Disequality
import SolverScript.Proofs.Value.FloatLiterals
import SolverScript.Proofs.Value.RealLiterals
import SolverScript.Proofs.Encoding.FloatCasts
import SolverScript.Proofs.Encoding.Dependencies
import SolverScript.Proofs.Script.ResultAssertions
import SolverScript.Proofs.Problem.Evaluability
import SolverScript.Proofs.Kind.Sorts
import SolverScript.Proofs.Encoding.RationalEquality
import SolverScript.Proofs.Semantics.Languages
import SolverScript.Proofs.Graph.RegExpReading
import SolverScript.Proofs.Graph.RegExpLanguage
