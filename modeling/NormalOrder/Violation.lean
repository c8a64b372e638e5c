/-!
# Violations of the evaluation order

Evaluation first expands metavariables and then reduces, and it draws fresh names as it goes. A
violation says which of the assumptions between these stages was broken: a metavariable came
through, a foreign constant stood where a term was needed, or no fresh name was left.
-/

namespace NormalOrder

/-- The operations that only expanded terms may reach. -/
inductive Stage where
  | substitution
  | freeVariables
  | renaming
  | reduction
deriving DecidableEq

/-- The operations that a foreign constant stops. -/
inductive Task where
  | expand
  | reduce
deriving DecidableEq

/-- A broken assumption. -/
inductive Violation where
  /-- A metavariable reached a stage that comes after expansion. -/
  | unexpanded (name : String) (stage : Stage)
  /-- A foreign constant stands in the place of an expression. -/
  | notExpression (shown : String) (task : Task)
  /-- Every name that may be handed out is in use. -/
  | namesExhausted (inUse : Nat)
deriving DecidableEq

end NormalOrder
