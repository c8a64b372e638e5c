import NormalOrder.Evaluator.Basic

/-!
# Expansion

Expansion replaces every metavariable by the value that is bound to its name, and marks the names
of all variables and parameters of the result as in use, so that no fresh name can be one of them.
The first metavariable without a value, from left to right, ends it. Values hold no metavariables
themselves, since only normal forms are stored.
-/

namespace NormalOrder.Evaluator

variable {κ : Type} [Shown κ]

/-- Replaces metavariables by their values in `env` and marks the names of variables and
parameters of the result. -/
def expandIn (env : OrderedMap String (Term κ)) :
    Term κ → NameSupply → Except EvalError (Term κ) × NameSupply
  | .var x, names => (.ok (.var x), names.use x)
  | .lam p b, names =>
    let (r, names') := expandIn env b (names.use p)
    (r.map (.lam p), names')
  | .app f a, names =>
    match expandIn env f names with
    | (.error e, names') => (.error e, names')
    | (.ok f', names') =>
      let (r, names'') := expandIn env a names'
      (r.map (.app f'), names'')
  | .group t, names =>
    let (r, names') := expandIn env t names
    (r.map .group, names')
  | .bind n t, names =>
    let (r, names') := expandIn env t names
    (r.map (.bind n), names')
  | .metavar n l, names =>
    match env.get? n with
    | none => (.error (.unbound n l), names)
    | some v => (.ok v, names.useAll v.names)
  | .const c, names => (.error (.violation (.notExpression (Shown.shown c) .expand)), names)

/-- Replaces metavariables by their values, at the first that has none failing. -/
def expand (t : Term κ) (m : Evaluator κ) : Except EvalError (Term κ) × Evaluator κ :=
  let (r, names) := expandIn m.environment t m.names
  (r, { m with names })

/-- Expansion binds no name. -/
theorem environment_expand (t : Term κ) (m : Evaluator κ) :
    (expand t m).2.environment = m.environment := rfl

end NormalOrder.Evaluator
