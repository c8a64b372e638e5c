import NormalOrder.OrderedMap
import NormalOrder.Term.Printer
import NormalOrder.Term.Substitution

/-!
# Evaluators

An evaluator holds an environment of named values and the state of the evaluation that uses it:
the names in use, how many contractions it may make and how many were counted. What an evaluation
comes to is a `Run`: a value or the error that ended it, the trace of what it did, and the state
after it. The state is there in every case, since what a failed evaluation stored, drew and
counted stays.
-/

namespace NormalOrder

/-- How many contractions an evaluation may make. -/
inductive Budget where
  /-- As many as it takes. -/
  | unbounded
  /-- At most `count`, so none if `count` is negative. -/
  | atMost (count : Int)
  /-- A budget whose number was left out. No count can be held against it. -/
  | blank
deriving DecidableEq

/-- Why an evaluation gives no value. -/
inductive EvalError where
  /-- A metavariable without a value, and where it was written. -/
  | unbound (name : String) (location : Option Location)
  /-- More contractions were needed than the budget allows. -/
  | overBudget (budget : Int)
  /-- A contraction was needed and the number of the budget was left out. -/
  | blankBudget
  /-- An assumption between the stages of evaluation was broken. -/
  | violation (v : Violation)
  /-- The number of repetitions allowed to `reduce` was too small. -/
  | unfinished
deriving DecidableEq

/-- What an evaluation shows of itself on the way. -/
inductive TraceEntry (κ : Type) where
  /-- The term after expansion. -/
  | expansion (term : Term κ)
  /-- The result of a contraction. -/
  | contraction (term : Term κ)

/-- How an evaluator is set up. -/
structure Options where
  /-- Whether the environment starts with the prelude. -/
  withPrelude : Bool := true
  /-- How many contractions an evaluation may make. -/
  budget : Budget := .unbounded
  /-- Whether fresh names may have subscripts. -/
  subscripts : Bool := false

/-- An environment and the state of the evaluation that uses it. -/
structure Evaluator (κ : Type) where
  /-- The bound names with their values, in the order in which they were first bound. -/
  environment : OrderedMap String (Term κ)
  /-- The names in use in the current evaluation. -/
  names : NameSupply
  /-- How many contractions one evaluation may make. -/
  budget : Budget
  /-- How many contractions have been counted. -/
  steps : Nat

/-- The outcome of an evaluation, the trace it left, and the state after it. -/
structure Run (κ : Type) where
  outcome : Except EvalError (Term κ)
  trace : List (TraceEntry κ)
  state : Evaluator κ

/-- Why a budget does not allow a number of contractions; `none` if it does. -/
def Budget.refusal? (steps : Nat) : Budget → Option EvalError
  | unbounded => none
  | atMost n => if n < steps then some (.overBudget n) else none
  | blank => some .blankBudget

namespace TraceEntry

variable {κ : Type} [Shown κ]

/-- The letter that marks an entry. -/
def tag : TraceEntry κ → String
  | expansion _ => "δ"
  | contraction _ => "β"

/-- The text of an entry's term. -/
def text : TraceEntry κ → String
  | expansion t | contraction t => t.text

end TraceEntry

/-- Puts an entry before the trace of a run. -/
def Run.cons {κ : Type} (e : TraceEntry κ) (r : Run κ) : Run κ := { r with trace := e :: r.trace }

namespace Evaluator

variable {κ : Type}

/-- An evaluator with nothing bound. -/
def blank (o : Options) : Evaluator κ := ⟨.empty, .new o.subscripts, o.budget, 0⟩

/-- Stores `value` under `name`. -/
def commit (m : Evaluator κ) (name : String) (value : Term κ) : Evaluator κ :=
  { m with environment := m.environment.put name value }

end Evaluator

end NormalOrder
