import NormalOrder.Diagnostic

/-!
# Failures

Whatever ends the work at hand before its time: an error that has a diagnostic, a signal from
outside, a request to exit, or a failure without an explanation.
-/

namespace NormalOrder

/-- The status that a request to exit asks for. -/
inductive ExitStatus where
  /-- None is given. -/
  | unspecified
  /-- A number. -/
  | code (n : Int)
  /-- Anything else, by its text. -/
  | other (text : String)
deriving DecidableEq

/-- What ends the work at hand. -/
inductive Failure where
  /-- An error with a diagnostic. -/
  | diagnosed (d : Diagnostic)
  /-- The user interrupted the work. -/
  | interrupted
  /-- The work was nested too deeply. -/
  | tooDeep
  /-- The interpreter is to exit. -/
  | exit (status : ExitStatus)
  /-- A failure without an explanation. -/
  | defect (d : Defect)
  /-- The bound on an evaluation was too small to tell its outcome. -/
  | unfinished

namespace Failure

/-- The failure that a text makes no term. -/
def ofSourceError (source : String) (e : SourceError) : Failure :=
  match Diagnostic.ofSourceError source e with
  | .ok d => diagnosed d
  | .error d => defect d

/-- The failure of an evaluation. -/
def ofEvalError : EvalError → Failure
  | .unbound n l => diagnosed (.unboundName n l)
  | .overBudget n => diagnosed (.budgetExceeded n)
  | .blankBudget => defect .blankBudget
  | .violation v => diagnosed (.ofViolation v)
  | .unfinished => unfinished

/-- Points a failure over an unbound name at the name in its line. -/
def locate (line : String) : Failure → Failure
  | diagnosed d => diagnosed (d.locate line)
  | f => f

end Failure

end NormalOrder
