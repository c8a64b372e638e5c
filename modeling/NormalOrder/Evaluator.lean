import NormalOrder.Evaluator.Expansion
import NormalOrder.Evaluator.Reduction

/-!
# Evaluation

A term is evaluated by expanding it and reducing what that gives to normal form. Each evaluation
begins with no name in use and no contraction counted, and leaves both as it ends, for inspection.
-/

namespace NormalOrder.Evaluator

variable {κ : Type} [Shown κ]

/-- Forgets the names and the count of the evaluation before. -/
def restart (m : Evaluator κ) : Evaluator κ := { m with names := m.names.reset, steps := 0 }

/-- Evaluates a term in at most `bound` steps: expands it and reduces what that gives. -/
def evaluate (bound : Nat) (t : Term κ) (m : Evaluator κ) : Run κ :=
  match expand t m.restart with
  | (.error e, m') => ⟨.error e, [], m'⟩
  | (.ok t', m') => (reduce bound t' m').cons (.expansion t')

end NormalOrder.Evaluator
