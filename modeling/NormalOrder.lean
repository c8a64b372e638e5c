import NormalOrder.Main
import NormalOrder.Proofs.Nameless.Standard
import NormalOrder.Proofs.Term.Nameless
import NormalOrder.Proofs.Term.Substitution
import NormalOrder.Proofs.Term.Normal
import NormalOrder.Proofs.Evaluator.Step
import NormalOrder.Proofs.Evaluator.History
import NormalOrder.Proofs.Evaluator.Soundness
import NormalOrder.Proofs.Evaluator.Leftmost
import NormalOrder.Proofs.Evaluator.BigStep
import NormalOrder.Proofs.Evaluator.Completeness
import NormalOrder.Proofs.Evaluator.Outcome
import NormalOrder.Proofs.Term.Alpha
import NormalOrder.Proofs.Evaluator.Alpha
import NormalOrder.Proofs.Token.Lexer
import NormalOrder.Proofs.Token.Longest
import NormalOrder.Proofs.Term.Grammar
import NormalOrder.Proofs.Term.Parser
import NormalOrder.Proofs.Term.Refusal
import NormalOrder.Proofs.Term.Printer
import NormalOrder.Proofs.Term.Parentheses
import NormalOrder.Proofs.Evaluator.Parentheses
import NormalOrder.Proofs.Evaluator.Expansion
import NormalOrder.Proofs.Evaluator.Termination
import NormalOrder.Proofs.Names.FirstFit
import NormalOrder.Proofs.Evaluator.Spelling
import NormalOrder.Proofs.Shell.SavedEnvironment
import NormalOrder.Proofs.Shell.Lines
import NormalOrder.Proofs.Evaluator.Budget
import NormalOrder.Proofs.Evaluator.Persistence
import NormalOrder.Proofs.Evaluator.Unbound
import NormalOrder.Proofs.Session.Failures
import NormalOrder.Proofs.Session.Queue
import NormalOrder.Proofs.Session.Groups
import NormalOrder.Proofs.Session.Overwriting
import NormalOrder.Proofs.CommandLine.File
import NormalOrder.Proofs.Reporter.Blocks
import NormalOrder.Proofs.Evaluator.Values
import NormalOrder.Proofs.Prelude.Values
import NormalOrder.Proofs.Prelude.Arithmetic
import NormalOrder.Proofs.Prelude.Combinators
import NormalOrder.Proofs.Shell.Settled
import NormalOrder.Proofs.Term.CaptureAvoidance
import NormalOrder.Proofs.Term.Alpha.Depths
import NormalOrder.Proofs.Term.Alpha.Conversion
import NormalOrder.Proofs.Evaluator.Idempotence
import NormalOrder.Proofs.Evaluator.Tracing
import NormalOrder.Proofs.Diagnostic.Span
import NormalOrder.Proofs.Term.Metavariables
import NormalOrder.Proofs.Term.Assignments
import NormalOrder.Proofs.Reporter.Lines
import NormalOrder.Proofs.Shell.Terms
import NormalOrder.Proofs.Session.Unbound
import NormalOrder.Proofs.Session.WarningPlaces
