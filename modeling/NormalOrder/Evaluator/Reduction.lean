import NormalOrder.Evaluator.Basic

/-!
# Reduction

Expanded terms are reduced in normal order, under binders too, until no redex is left. `step`
looks for the leftmost outermost redex. It either contracts one, and returns the whole term with
the contractum in its place; or it finds that there is none, and returns the term with its
parentheses dropped and its bindings replaced by their values; or it fails. It stores the value of
each binding that it finds to be normal on its way. `reduce` repeats `step`; it is given a bound on
the number of repetitions, and says so when the bound does not suffice.
-/

namespace NormalOrder

/-- The outcome of one step. -/
inductive StepResult (κ : Type) where
  /-- There is no redex; `value` is the normal form. -/
  | normal (value : Term κ)
  /-- A redex was contracted to `contractum`, and the whole is now `term`. -/
  | contracted (contractum term : Term κ)
  | failed (e : EvalError)

/-- Applies `f` to the whole term of a step, contracted or normal. -/
def StepResult.map {κ : Type} (f : Term κ → Term κ) : StepResult κ → StepResult κ
  | normal v => normal (f v)
  | contracted r t => contracted r (f t)
  | failed e => failed e

namespace Evaluator

variable {κ : Type}

/-- Contracts the application of the abstraction of `p` over `body` to `argument`. The attempt
counts also when it fails. -/
def contract (p : String) (body argument : Term κ) (m : Evaluator κ) :
    Except EvalError (Term κ) × Evaluator κ :=
  let m' := { m with steps := m.steps + 1 }
  match m.budget.refusal? m'.steps with
  | some e => (.error e, m')
  | none =>
    match Term.subst p argument body m.names with
    | (.error v, names) => (.error (.violation v), { m' with names })
    | (.ok t, names) => (.ok t, { m' with names })

/-- Contracts a redex that is the whole term. -/
def contractStep (p : String) (body argument : Term κ) (m : Evaluator κ) :
    StepResult κ × Evaluator κ :=
  match contract p body argument m with
  | (.error e, m') => (.failed e, m')
  | (.ok t, m') => (.contracted t t, m')

/-- A contraction binds no name. -/
theorem environment_contract (p : String) (body argument : Term κ) (m : Evaluator κ) :
    (contract p body argument m).2.environment = m.environment := by
  simp only [contract]
  split
  · rfl
  · split <;> rfl

variable [Shown κ]

/-- Looks for the leftmost outermost redex of a term and contracts it. -/
def step : Term κ → Evaluator κ → StepResult κ × Evaluator κ
  | .var x, m => (.normal (.var x), m)
  | .lam p b, m =>
    let (r, m') := step b m
    (r.map (.lam p), m')
  | .group t, m => step t m
  | .bind n t, m =>
    match step t m with
    | (.normal v, m') => (.normal v, m'.commit n v)
    | (r, m') => (r.map (.bind n), m')
  | .app f a, m =>
    match f.ungroup with
    | .lam p b => contractStep p b a m
    | _ =>
      match step f m with
      | (.normal (.lam p b), m') => contractStep p b a m'
      | (.normal v, m') =>
        let (r, m'') := step a m'
        (r.map (.app v), m'')
      | (r, m') => (r.map (.app · a), m')
  | .metavar n _, m => (.failed (.violation (.unexpanded n .reduction)), m)
  | .const c, m => (.failed (.violation (.notExpression (Shown.shown c) .reduce)), m)

/-- Reduces an expanded term to its normal form in at most `bound` steps. -/
def reduce : (bound : Nat) → Term κ → Evaluator κ → Run κ
  | 0, _, m => ⟨.error .unfinished, [], m⟩
  | bound + 1, t, m =>
    match step t m with
    | (.normal v, m') => ⟨.ok v, [], m'⟩
    | (.contracted r t', m') => (reduce bound t' m').cons (.contraction r)
    | (.failed e, m') => ⟨.error e, [], m'⟩

end Evaluator

end NormalOrder
