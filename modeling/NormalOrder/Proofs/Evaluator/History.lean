import NormalOrder.Prelude
import NormalOrder.Proofs.Evaluator.Step

/-!
# Histories of an evaluator

The state of an evaluator is what its calls have left, whether they gave a value or not
(`Evaluator.after`); setting it up is a series of calls too (`new_eq_after`). What a step stores
on its way is listed by `storedBy`, what a run stores by `storedIn`; the environment after it is
the one before with these values put in, one after another (`StepTo.environment`,
`environment_reduce`). So an environment of any moment is the one before the call with the first
few of them put in.

A step finds a term normal only if it is (`StepTo.normal`): the function of an application, once
normal, is looked at again, and if it has become an abstraction it is applied. What a binding
stores was found normal before, so an environment holds normal terms at every moment
(`normal_throughout`).
-/

namespace NormalOrder

variable {κ : Type}

namespace OrderedMap

/-- The map with the pairs of a list put in, one after another. -/
def putAll (env : OrderedMap String (Term κ)) (es : List (String × Term κ)) :
    OrderedMap String (Term κ) :=
  es.foldl (fun env e => env.put e.1 e.2) env

/-- Every value of the map is normal. -/
def HoldsNormal (env : OrderedMap String (Term κ)) : Prop :=
  ∀ n v, env.get? n = some v → v.Normal

/-- Putting in two lists is putting in one after the other. -/
theorem putAll_append (env : OrderedMap String (Term κ)) (es es' : List (String × Term κ)) :
    env.putAll (es ++ es') = (env.putAll es).putAll es' :=
  List.foldl_append ..

/-- What holds of every name with its value still holds after pairs are put in of which it holds. -/
theorem forall_get?_putAll {P : String → Term κ → Prop} {env : OrderedMap String (Term κ)}
    {es : List (String × Term κ)} (h : ∀ n v, env.get? n = some v → P n v)
    (hes : ∀ e ∈ es, P e.1 e.2) : ∀ n v, (env.putAll es).get? n = some v → P n v := by
  induction es generalizing env with
  | nil => exact h
  | cons e es ih =>
    refine ih (fun n v hv => ?_) fun e' he' => hes e' (.tail _ he')
    rw [get?_put] at hv
    split at hv
    · next hn =>
      cases hv
      exact hn ▸ hes e (.head _)
    · exact h n v hv

/-- A map holds normal terms after normal terms are put in. -/
theorem HoldsNormal.putAll {env : OrderedMap String (Term κ)} {es : List (String × Term κ)}
    (h : env.HoldsNormal) (hes : ∀ e ∈ es, e.2.Normal) : (env.putAll es).HoldsNormal :=
  forall_get?_putAll h hes

end OrderedMap

namespace Evaluator

variable {t : Term κ} {m m' : Evaluator κ} {r : StepResult κ}

/-- A contraction stores nothing. -/
theorem environment_contractStep {p : String} {b a : Term κ}
    (h : contractStep p b a m = (r, m')) : m'.environment = m.environment := by
  rcases contractStep_cases h with ⟨e, -, hc⟩ | ⟨t, -, hc⟩
  · have henv := environment_contract p b a m
    rwa [hc] at henv
  · exact hc.environment

variable [Shown κ]

/-! ## What steps and runs store -/

/-- The names and values that a step stores, in order. -/
def storedBy : Term κ → Evaluator κ → List (String × Term κ)
  | .lam _ b, m => storedBy b m
  | .group t, m => storedBy t m
  | .bind n t, m =>
    match step t m with
    | (.normal v, _) => storedBy t m ++ [(n, v)]
    | _ => storedBy t m
  | .app f a, m =>
    match f.ungroup with
    | .lam _ _ => []
    | _ =>
      match step f m with
      | (.normal (.lam _ _), _) => storedBy f m
      | (.normal _, m') => storedBy f m ++ storedBy a m'
      | _ => storedBy f m
  | .var _, _ | .metavar _ _, _ | .const _, _ => []

/-- The names and values that a run stores, in order. -/
def storedIn : (bound : Nat) → Term κ → Evaluator κ → List (String × Term κ)
  | 0, _, _ => []
  | bound + 1, t, m =>
    match step t m with
    | (.contracted _ t', m') => storedBy t m ++ storedIn bound t' m'
    | _ => storedBy t m

/-- What an application stores whose function is found to be normal and no abstraction: what the
function stores and then what the argument stores. -/
theorem storedBy_app {f v a : Term κ} (hl : ¬ f.ungroup.IsLam)
    (hf : StepTo f m (.normal v) m') (hv : ¬ v.IsLam) :
    storedBy (.app f a) m = storedBy f m ++ storedBy a m' := by
  rw [storedBy]
  split
  · next hlam => exact absurd hlam (Term.not_isLam_iff.1 hl _ _)
  · rw [hf.step_eq]
    cases v with
    | lam => exact absurd trivial hv
    | var | app | group | bind | metavar | const => rfl

/-- What an application stores otherwise, if its function is no abstraction yet: what the
function stores. -/
theorem storedBy_app_of_function {f a : Term κ} (hl : ¬ f.ungroup.IsLam) (hf : StepTo f m r m')
    (hr : ∀ v, r = .normal v → v.IsLam) : storedBy (.app f a) m = storedBy f m := by
  rw [storedBy]
  split
  · next hlam => exact absurd hlam (Term.not_isLam_iff.1 hl _ _)
  · rw [hf.step_eq]
    cases r with
    | normal v =>
      cases v with
      | lam => rfl
      | var | app | group | bind | metavar | const => exact (hr _ rfl).elim
    | contracted | failed => rfl

/-- The environment after a step is the one before with what the step stores put in. -/
theorem StepTo.environment (h : StepTo t m r m') :
    m'.environment = m.environment.putAll (storedBy t m) := by
  induction h with
  | var | metavar | const => rfl
  | lam _ ih | group _ ih => exact ih
  | @store n t v m m' ht ih =>
    rw [storedBy, ht.step_eq]
    simp only [OrderedMap.putAll_append, ← ih]
    rfl
  | @value n t m m' r hr ht ih =>
    rw [storedBy, ht.step_eq]
    cases r with
    | normal v => exact absurd trivial hr
    | contracted | failed => exact ih
  | @redex p f b a m m' r hf hc =>
    rw [storedBy, hf]
    exact environment_contractStep hc
  | @stored p f b a m m' m'' r hl hf hc ih =>
    rw [environment_contractStep hc, ih,
      storedBy_app_of_function hl hf (fun v hv => by cases hv; trivial)]
  | @argument f v a m m' m'' r hl hf hv ha ihf iha =>
    rw [storedBy_app hl hf hv, OrderedMap.putAll_append, ← ihf, iha]
  | @function f a m m' r hl hr hf ih =>
    rw [storedBy_app_of_function hl hf (fun v hv => absurd (by rw [hv]; trivial) hr)]
    exact ih

/-- The environment after a run is the one before with what the run stores put in. -/
theorem environment_reduce (bound : Nat) (t : Term κ) (m : Evaluator κ) :
    (reduce bound t m).state.environment = m.environment.putAll (storedIn bound t m) := by
  induction bound generalizing t m with
  | zero => rfl
  | succ bound ih =>
    have henv := (stepTo_step t m).environment
    rw [reduce, storedIn]
    split
    · next hs =>
      rw [hs] at henv ⊢
      exact henv
    · next u t' m' hs =>
      rw [hs] at henv ⊢
      simp only [OrderedMap.putAll_append]
      rw [← henv]
      exact ih t' m'
    · next hs =>
      rw [hs] at henv ⊢
      exact henv

/-! ## What they store is normal -/

/-- What a step finds normal is normal. -/
theorem StepTo.normal (h : StepTo t m r m') {v : Term κ} (hv : r = .normal v) : v.Normal := by
  induction h generalizing v with
  | var =>
    cases hv
    trivial
  | lam _ ih =>
    obtain ⟨b', rfl, rfl⟩ := StepResult.map_eq_normal.1 hv
    have hb' : b'.Normal := ih rfl
    exact hb'
  | group _ ih => exact ih hv
  | store _ ih => exact ih hv
  | value hr | function _ hr => exact absurd hv (StepResult.map_ne_normal hr)
  | redex _ hc | stored _ _ hc => exact absurd hv (contractStep_ne_normal hc)
  | argument _ _ hw _ ihf iha =>
    obtain ⟨a', rfl, rfl⟩ := StepResult.map_eq_normal.1 hv
    exact ⟨hw, ihf rfl, iha rfl⟩
  | metavar | const => cases hv

/-- What a step stores is normal. -/
theorem StepTo.normal_stored (h : StepTo t m r m') : ∀ e ∈ storedBy t m, e.2.Normal := by
  induction h with
  | var | metavar | const => exact fun e he => nomatch he
  | lam _ ih | group _ ih => exact ih
  | @store n t v m m' ht ih =>
    rw [storedBy, ht.step_eq]
    intro e he
    rcases List.mem_append.1 he with he | he
    · exact ih e he
    · obtain rfl := List.mem_singleton.1 he
      exact ht.normal rfl
  | @value n t m m' r hr ht ih =>
    rw [storedBy, ht.step_eq]
    cases r with
    | normal v => exact absurd trivial hr
    | contracted | failed => exact ih
  | @redex p f b a m m' r hf =>
    rw [storedBy, hf]
    exact fun e he => nomatch he
  | @stored p f b a m m' m'' r hl hf hc ih =>
    rwa [storedBy_app_of_function hl hf (fun v hv => by cases hv; trivial)]
  | @argument f v a m m' m'' r hl hf hv ha ihf iha =>
    rw [storedBy_app hl hf hv]
    intro e he
    exact (List.mem_append.1 he).elim (ihf e) (iha e)
  | @function f a m m' r hl hr hf ih =>
    rwa [storedBy_app_of_function hl hf (fun v hv => absurd (by rw [hv]; trivial) hr)]

/-- What a run stores is normal. -/
theorem normal_storedIn (bound : Nat) (t : Term κ) (m : Evaluator κ) :
    ∀ e ∈ storedIn bound t m, e.2.Normal := by
  induction bound generalizing t m with
  | zero => exact fun e he => nomatch he
  | succ bound ih =>
    have hstep := (stepTo_step t m).normal_stored
    rw [storedIn]
    split
    · next u t' m' hs =>
      intro e he
      exact (List.mem_append.1 he).elim (hstep e) (ih t' m' e)
    · exact hstep

/-- A run that gives a value gives a normal one. -/
theorem RunTo.normal_value {run : Run κ} (h : RunTo t m run) {v : Term κ}
    (hv : run.outcome = .ok v) : v.Normal := by
  induction h with
  | normal h =>
    cases hv
    exact h.normal rfl
  | failed => cases hv
  | contracted _ _ ih => exact ih hv

/-- A reduction that gives a value gives a normal one. -/
theorem normal_reduce {bound : Nat} {v : Term κ} (h : (reduce bound t m).outcome = .ok v) :
    v.Normal :=
  (runTo_of_outcome h).normal_value h

/-! ## Calls one after another -/

/-- What may be asked of an evaluator. The bound of an evaluation or a reduction says after how
many steps it is broken off if it has not come to an end. -/
inductive Call (κ : Type) where
  | evaluate (bound : Nat) (t : Term κ)
  | expand (t : Term κ)
  | reduce (bound : Nat) (t : Term κ)
  | contract (p : String) (b a : Term κ)

/-- What a call comes to, and the state that it leaves. -/
def Call.run : Call κ → Evaluator κ → Except EvalError (Term κ) × Evaluator κ
  | evaluate bound t, m =>
    let r := Evaluator.evaluate bound t m
    (r.outcome, r.state)
  | expand t, m => Evaluator.expand t m
  | reduce bound t, m =>
    let r := Evaluator.reduce bound t m
    (r.outcome, r.state)
  | contract p b a, m => Evaluator.contract p b a m

/-- The names and values that a call stores, in order. -/
def Call.stored : Call κ → Evaluator κ → List (String × Term κ)
  | evaluate bound t, m =>
    match Evaluator.expand t m.restart with
    | (.ok t', m') => storedIn bound t' m'
    | (.error _, _) => []
  | reduce bound t, m => storedIn bound t m
  | expand _, _ | contract _ _ _, _ => []

/-- The state that a series of calls leaves, from an evaluator with nothing bound. -/
def after (o : Options) (calls : List (Call κ)) : Evaluator κ :=
  calls.foldl (fun m c => (c.run m).2) (blank o)

/-- The call that evaluates a definition, if it is one. -/
def callOf (line : String) : Option (Call κ) :=
  match Term.parse line with
  | .ok t => some (.evaluate 1 t)
  | .error _ => none

/-- Evaluating definitions is a series of calls. -/
theorem foldl_define (lines : List String) (m : Evaluator κ) :
    lines.foldl define m = (lines.filterMap callOf).foldl (fun m c => (c.run m).2) m := by
  induction lines generalizing m with
  | nil => rfl
  | cons line lines ih =>
    rw [List.foldl_cons, ih, List.filterMap_cons, define, callOf]
    cases (Term.parse line : Except SourceError (Term κ)) with
    | ok | error => rfl

/-- Setting an evaluator up is a series of calls. -/
theorem new_eq_after (o : Options) :
    (new o : Evaluator κ)
      = after o (if o.withPrelude then definitions.filterMap callOf else []) := by
  rw [new]
  split
  · exact foldl_define definitions (blank o)
  · rfl

/-- The environment after a call is the one before with what the call stores put in. -/
theorem environment_run (c : Call κ) (m : Evaluator κ) :
    (c.run m).2.environment = m.environment.putAll (c.stored m) := by
  cases c with
  | evaluate bound t =>
    have henv := environment_expand t m.restart
    rw [Call.run, Call.stored, Evaluator.evaluate]
    split
    · next hx =>
      rw [hx] at henv ⊢
      exact henv
    · next t' m' hx =>
      rw [hx] at henv ⊢
      have hrun := environment_reduce bound t' m'
      rw [henv] at hrun
      exact hrun
  | expand t => exact environment_expand t m
  | reduce bound t => exact environment_reduce bound t m
  | contract p b a => exact environment_contract p b a m

/-- What a call stores is normal. -/
theorem Call.normal_stored (c : Call κ) (m : Evaluator κ) : ∀ e ∈ c.stored m, e.2.Normal := by
  cases c with
  | evaluate bound t =>
    rw [Call.stored]
    split
    · next t' m' _ => exact normal_storedIn bound t' m'
    · exact fun e he => nomatch he
  | reduce bound t => exact normal_storedIn bound t m
  | expand | contract => exact fun e he => nomatch he

/-- The environment holds normal terms after every series of calls. -/
theorem holdsNormal_after (o : Options) (calls : List (Call κ)) :
    (after o calls).environment.HoldsNormal := by
  have hfold : ∀ (calls : List (Call κ)) (m : Evaluator κ), m.environment.HoldsNormal →
      (calls.foldl (fun m c => (c.run m).2) m).environment.HoldsNormal := by
    intro calls
    induction calls with
    | nil => exact fun m hm => hm
    | cons c calls ih =>
      intro m hm
      refine ih _ ?_
      rw [environment_run]
      exact hm.putAll (c.normal_stored m)
  refine hfold calls (blank o) fun n v hv => ?_
  cases hv

/-- An evaluation that gives a value gives a normal one. -/
theorem normal_evaluate {bound : Nat} {t v : Term κ} {m : Evaluator κ}
    (h : (Evaluator.evaluate bound t m).outcome = .ok v) : v.Normal := by
  rw [Evaluator.evaluate] at h
  split at h
  · cases h
  · exact normal_reduce h

/-- After every series of calls, whatever they came to: the environment holds normal terms, it
goes on to hold normal terms at every moment of a further call, and evaluations and reductions
give normal terms. The moments of a call are told apart by what it has stored so far, which is
the beginning of the list of all that it stores. -/
theorem normal_throughout (o : Options) (calls : List (Call κ)) :
    (after o calls).environment.HoldsNormal ∧
      (∀ c : Call κ,
        (c.run (after o calls)).2.environment
            = (after o calls).environment.putAll (c.stored (after o calls)) ∧
          ∀ es, es <+: c.stored (after o calls) →
            ((after o calls).environment.putAll es).HoldsNormal) ∧
      (∀ bound t v, (Evaluator.evaluate bound t (after o calls)).outcome = .ok v → v.Normal) ∧
      ∀ bound t v, (Evaluator.reduce bound t (after o calls)).outcome = .ok v → v.Normal := by
  have hm := holdsNormal_after o calls
  refine ⟨hm, fun c => ⟨environment_run c _, fun es hes => hm.putAll fun e he => ?_⟩,
    fun bound t v => normal_evaluate, fun bound t v => normal_reduce⟩
  exact c.normal_stored _ e (hes.subset he)

end Evaluator

end NormalOrder
