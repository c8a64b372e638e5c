import NormalOrder.Evaluator
import NormalOrder.Proofs.Term.Normal

/-!
# Steps and runs as relations

`StepTo` is the search for the leftmost outermost redex as a relation, one rule for each way
through it, and `RunTo` is reduction: steps that contract, and then one that finds the term normal
or fails. Each is the function it is named for (`step_eq_iff`, `runTo_iff_reduce`); a run has no
bound in it, since a bound that suffices can be enlarged (`RunTo.reduce_add`). The invariants of
evaluation are proved from these rules.

What a contraction does to the state is in `contractStep_cases`: it counts, and what it puts into
the body obeys the rules of substitution.
-/

namespace NormalOrder

variable {κ : Type}

namespace StepResult

/-- Whether the step found no redex. -/
def IsNormal : StepResult κ → Prop
  | normal _ => True
  | _ => False

/-- The whole term after a step that did not fail. -/
def term? : StepResult κ → Option (Term κ)
  | normal v => some v
  | contracted _ t => some t
  | failed _ => none

variable {f : Term κ → Term κ} {r : StepResult κ} {t u v : Term κ}

/-- A function applied to the whole term applies to it where there is one. -/
theorem term?_map_eq_some : (r.map f).term? = some t ↔ ∃ t', r.term? = some t' ∧ f t' = t := by
  cases r <;> simp [map, term?]

/-- A step below a constructor found no redex only if it found none there. -/
theorem map_eq_normal : r.map f = .normal v ↔ ∃ v', r = .normal v' ∧ f v' = v := by
  cases r <;> simp [map]

/-- A step below a constructor contracted only what it contracted there. -/
theorem map_eq_contracted : r.map f = .contracted u t ↔ ∃ t', r = .contracted u t' ∧ f t' = t := by
  cases r <;> simp [map]

/-- A step below a constructor failed only if it failed there. -/
theorem map_eq_failed {e : EvalError} : r.map f = .failed e ↔ r = .failed e := by
  cases r <;> simp [map]

/-- A step below a constructor found a redex if it found one there. -/
theorem map_ne_normal (h : ¬ r.IsNormal) : r.map f ≠ .normal v := by
  cases r with
  | normal => exact absurd trivial h
  | contracted | failed => exact nofun

/-- A step that found no redex has a normal form for its result. -/
theorem isNormal_iff : r.IsNormal ↔ ∃ v, r = .normal v := by
  cases r <;> simp [IsNormal]

end StepResult

namespace Run

variable {e : TraceEntry κ} {r : Run κ}

/-- An entry put before the trace leaves the outcome as it is. -/
@[simp] theorem outcome_cons : (r.cons e).outcome = r.outcome := rfl

/-- An entry put before the trace leaves the state as it is. -/
@[simp] theorem state_cons : (r.cons e).state = r.state := rfl

end Run

namespace Evaluator

/-! ## Contractions -/

/-- What a contraction that succeeds does to the state: it is counted, and the budget allows the
new count. The names in use are those after the substitution. -/
structure Contracts (p : String) (b a : Term κ) (m : Evaluator κ) (t : Term κ)
    (m' : Evaluator κ) : Prop where
  subst : Term.SubstTo p a b m.names t m'.names
  steps : m'.steps = m.steps + 1
  allowed : m.budget.refusal? (m.steps + 1) = none
  budget : m'.budget = m.budget
  environment : m'.environment = m.environment

/-- A contraction that gives a term has put the argument into the body. -/
theorem contracts_of_contract {p : String} {b a t : Term κ} {m m' : Evaluator κ}
    (h : contract p b a m = (.ok t, m')) : Contracts p b a m t m' := by
  rw [contract] at h
  split at h
  · cases h
  · next hallowed =>
    split at h
    · cases h
    · next t' names hs =>
      cases h
      exact ⟨Term.substTo_of_subst hs, rfl, hallowed, rfl, rfl⟩

/-- A contraction of a redex that is the whole term fails or gives the contractum. -/
theorem contractStep_cases {p : String} {b a : Term κ} {m m' : Evaluator κ} {r : StepResult κ}
    (h : contractStep p b a m = (r, m')) :
    (∃ e, r = .failed e ∧ contract p b a m = (.error e, m')) ∨
      ∃ t, r = .contracted t t ∧ Contracts p b a m t m' := by
  rw [contractStep] at h
  split at h
  · next e m₁ hc =>
    cases h
    exact .inl ⟨e, rfl, hc⟩
  · next t m₁ hc =>
    cases h
    exact .inr ⟨t, rfl, contracts_of_contract hc⟩

/-- What a redex that is the whole term becomes, if it does not fail, is the contractum. -/
theorem contracts_of_contractStep {p : String} {b a t : Term κ} {m m' : Evaluator κ}
    {r : StepResult κ} (h : contractStep p b a m = (r, m')) (ht : r.term? = some t) :
    r = .contracted t t ∧ Contracts p b a m t m' := by
  rcases contractStep_cases h with ⟨e, rfl, -⟩ | ⟨u, rfl, hc⟩
  · cases ht
  · cases ht
    exact ⟨rfl, hc⟩

/-- A redex that is the whole term is contracted or it fails; it is not found to be normal. -/
theorem contractStep_ne_normal {p : String} {b a v : Term κ} {m m' : Evaluator κ}
    {r : StepResult κ} (h : contractStep p b a m = (r, m')) : r ≠ .normal v := by
  rcases contractStep_cases h with ⟨e, rfl, -⟩ | ⟨t, rfl, -⟩
  · exact nofun
  · exact nofun

/-- A contraction leaves the budget as it is. -/
theorem budget_contractStep {p : String} {b a : Term κ} {m m' : Evaluator κ} {r : StepResult κ}
    (h : contractStep p b a m = (r, m')) : m'.budget = m.budget := by
  rcases contractStep_cases h with ⟨e, -, hc⟩ | ⟨t, -, hc⟩
  · rw [contract] at hc
    split at hc
    · cases hc
      rfl
    · split at hc
      · cases hc
        rfl
      · cases hc
  · exact hc.budget

/-! ## Steps -/

variable [Shown κ]

/-- The search for the leftmost outermost redex comes to a result: the ways through it. -/
inductive StepTo : Term κ → Evaluator κ → StepResult κ → Evaluator κ → Prop where
  | var (x : String) (m : Evaluator κ) : StepTo (.var x) m (.normal (.var x)) m
  | lam {p : String} {b : Term κ} {m m' : Evaluator κ} {r : StepResult κ} (hb : StepTo b m r m') :
    StepTo (.lam p b) m (r.map (.lam p)) m'
  | group {t : Term κ} {m m' : Evaluator κ} {r : StepResult κ} (ht : StepTo t m r m') :
    StepTo (.group t) m r m'
  | store {n : String} {t v : Term κ} {m m' : Evaluator κ} (ht : StepTo t m (.normal v) m') :
    StepTo (.bind n t) m (.normal v) (m'.commit n v)
  | value {n : String} {t : Term κ} {m m' : Evaluator κ} {r : StepResult κ} (hr : ¬ r.IsNormal)
      (ht : StepTo t m r m') :
    StepTo (.bind n t) m (r.map (.bind n)) m'
  | redex {p : String} {f b a : Term κ} {m m' : Evaluator κ} {r : StepResult κ}
      (hf : f.ungroup = .lam p b) (hc : contractStep p b a m = (r, m')) :
    StepTo (.app f a) m r m'
  | stored {p : String} {f b a : Term κ} {m m' m'' : Evaluator κ} {r : StepResult κ}
      (hl : ¬ f.ungroup.IsLam) (hf : StepTo f m (.normal (.lam p b)) m')
      (hc : contractStep p b a m' = (r, m'')) :
    StepTo (.app f a) m r m''
  | argument {f v a : Term κ} {m m' m'' : Evaluator κ} {r : StepResult κ}
      (hl : ¬ f.ungroup.IsLam) (hf : StepTo f m (.normal v) m') (hv : ¬ v.IsLam)
      (ha : StepTo a m' r m'') :
    StepTo (.app f a) m (r.map (.app v)) m''
  | function {f a : Term κ} {m m' : Evaluator κ} {r : StepResult κ} (hl : ¬ f.ungroup.IsLam)
      (hr : ¬ r.IsNormal) (hf : StepTo f m r m') :
    StepTo (.app f a) m (r.map (.app · a)) m'
  | metavar (n : String) (l : Option Location) (m : Evaluator κ) :
    StepTo (.metavar n l) m (.failed (.violation (.unexpanded n .reduction))) m
  | const (c : κ) (m : Evaluator κ) :
    StepTo (.const c) m (.failed (.violation (.notExpression (Shown.shown c) .reduce))) m

variable {t : Term κ} {m m' : Evaluator κ} {r : StepResult κ}

/-- A step goes one of the ways. -/
theorem stepTo_step (t : Term κ) (m : Evaluator κ) : StepTo t m (step t m).1 (step t m).2 := by
  have hnot : ∀ {r : StepResult κ}, (∀ v, r = .normal v → False) → ¬ r.IsNormal := by
    intro r hr hn
    obtain ⟨v, hv⟩ := StepResult.isNormal_iff.1 hn
    exact hr v hv
  fun_induction step t m with
  | case1 x m => exact .var x m
  | case2 p b m r m' hb ih =>
    rw [hb] at ih
    exact .lam ih
  | case3 t m ih => exact .group ih
  | case4 n t m v m' ht ih =>
    rw [ht] at ih
    exact .store ih
  | case5 n t m r m' hr ht ih =>
    rw [ht] at ih
    exact .value (hnot hr) ih
  | case6 f a m p b hf => exact .redex hf rfl
  | case7 f a m p b m' hf hl ih =>
    rw [hf] at ih
    exact .stored (Term.not_isLam_iff.2 hl) ih rfl
  | case8 f a m v m' hv hf r m'' ha hl ihf iha =>
    rw [hf] at ihf
    rw [ha] at iha
    exact .argument (Term.not_isLam_iff.2 hl) ihf (Term.not_isLam_iff.2 hv) iha
  | case9 f a m r m' _ hr hf hl ih =>
    rw [hf] at ih
    exact .function (Term.not_isLam_iff.2 hl) (hnot hr) ih
  | case10 n l m => exact .metavar n l m
  | case11 c m => exact .const c m

/-- A way through the search is the one that a step goes. -/
theorem StepTo.step_eq (h : StepTo t m r m') : step t m = (r, m') := by
  induction h with
  | var | metavar | const => rfl
  | lam _ ih => rw [step, ih]
  | group _ ih => rw [step, ih]
  | store _ ih => rw [step, ih]
  | @value n t m m' r hr _ ih =>
    rw [step, ih]
    cases r with
    | normal v => exact absurd trivial hr
    | contracted | failed => rfl
  | redex hf hc => rw [step, hf, ← hc]
  | @stored p f b a m m' m'' r hl _ hc ih =>
    rw [step]
    split
    · next hf => exact absurd hf (Term.not_isLam_iff.1 hl _ _)
    · rw [ih, ← hc]
  | @argument f v a m m' m'' r hl _ hv _ ihf iha =>
    rw [step]
    split
    · next hf => exact absurd hf (Term.not_isLam_iff.1 hl _ _)
    · rw [ihf]
      cases v with
      | lam p b => exact absurd trivial hv
      | var | app | group | bind | metavar | const => simp only [iha]
  | @function f a m m' r hl hr _ ih =>
    rw [step]
    split
    · next hf => exact absurd hf (Term.not_isLam_iff.1 hl _ _)
    · rw [ih]
      cases r with
      | normal v => exact absurd trivial hr
      | contracted | failed => rfl

/-- Steps are the ways through the search. -/
theorem step_eq_iff : step t m = (r, m') ↔ StepTo t m r m' := by
  refine ⟨fun h => ?_, StepTo.step_eq⟩
  have hstep := stepTo_step t m
  rwa [h] at hstep

/-! ## Steps of normal terms -/

/-- A normal term steps to itself. -/
theorem stepTo_normal {v : Term κ} (h : v.Normal) (m : Evaluator κ) : StepTo v m (.normal v) m := by
  induction v with
  | var x => exact .var x m
  | lam p b ih => exact .lam (ih h)
  | app f a ihf iha =>
    obtain ⟨hl, hf, ha⟩ := h
    have hl' : ¬ f.ungroup.IsLam := by rwa [hf.ungroup_eq]
    exact .argument hl' (ihf hf) hl (iha ha)
  | group | bind | metavar | const => exact h.elim

/-- A normal term steps to nothing else. -/
theorem StepTo.eq_of_normal {v : Term κ} (h : StepTo v m r m') (hv : v.Normal) :
    r = .normal v ∧ m' = m := by
  have heq := h.step_eq
  rw [(stepTo_normal hv m).step_eq] at heq
  cases heq
  exact ⟨rfl, rfl⟩

/-! ## Counting -/

/-- A step leaves the budget as it is. -/
theorem StepTo.budget_eq (h : StepTo t m r m') : m'.budget = m.budget := by
  induction h with
  | var | metavar | const => rfl
  | lam _ ih | group _ ih | store _ ih | value _ _ ih | function _ _ _ ih => exact ih
  | redex _ hc => exact budget_contractStep hc
  | stored _ _ hc ih => exact (budget_contractStep hc).trans ih
  | argument _ _ _ _ ihf iha => exact iha.trans ihf

/-- A step that finds no redex counts nothing. -/
theorem StepTo.steps_of_normal (h : StepTo t m r m') {v : Term κ} (hv : r = .normal v) :
    m'.steps = m.steps := by
  induction h generalizing v with
  | var => rfl
  | lam _ ih =>
    obtain ⟨b, rfl, -⟩ := StepResult.map_eq_normal.1 hv
    exact ih rfl
  | group _ ih | store _ ih => exact ih hv
  | value hr | function _ hr => exact absurd hv (StepResult.map_ne_normal hr)
  | redex _ hc | stored _ _ hc => exact absurd hv (contractStep_ne_normal hc)
  | argument _ _ _ _ ihf iha =>
    obtain ⟨a, rfl, -⟩ := StepResult.map_eq_normal.1 hv
    exact (iha rfl).trans (ihf rfl)
  | metavar | const => cases hv

/-- A step that contracts a redex counts one contraction, which the budget allows. -/
theorem StepTo.steps_of_contracted (h : StepTo t m r m') {u t' : Term κ}
    (hu : r = .contracted u t') :
    m'.steps = m.steps + 1 ∧ m.budget.refusal? (m.steps + 1) = none := by
  induction h generalizing u t' with
  | var | store | metavar | const => cases hu
  | lam _ ih | value _ _ ih | function _ _ _ ih =>
    obtain ⟨v, rfl, -⟩ := StepResult.map_eq_contracted.1 hu
    exact ih rfl
  | group _ ih => exact ih hu
  | redex _ hc =>
    subst hu
    obtain ⟨-, hk⟩ := contracts_of_contractStep hc rfl
    exact ⟨hk.steps, hk.allowed⟩
  | stored _ hf hc =>
    subst hu
    obtain ⟨-, hk⟩ := contracts_of_contractStep hc rfl
    rw [← hf.steps_of_normal rfl, ← hf.budget_eq]
    exact ⟨hk.steps, hk.allowed⟩
  | argument _ hf _ _ _ iha =>
    obtain ⟨v, rfl, -⟩ := StepResult.map_eq_contracted.1 hu
    rw [← hf.steps_of_normal rfl, ← hf.budget_eq]
    exact iha rfl

/-! ## Runs -/

/-- Reduction comes to an end: the term is found to be normal, or a step fails, or a redex is
contracted and reduction goes on and comes to an end. -/
inductive RunTo : Term κ → Evaluator κ → Run κ → Prop where
  | normal {t v : Term κ} {m m' : Evaluator κ} (h : StepTo t m (.normal v) m') :
    RunTo t m ⟨.ok v, [], m'⟩
  | failed {t : Term κ} {m m' : Evaluator κ} {e : EvalError} (h : StepTo t m (.failed e) m') :
    RunTo t m ⟨.error e, [], m'⟩
  | contracted {t u t' : Term κ} {m m' : Evaluator κ} {r : Run κ}
      (h : StepTo t m (.contracted u t') m') (hr : RunTo t' m' r) :
    RunTo t m (r.cons (.contraction u))

/-- No step says that the bound was too small. -/
theorem StepTo.ne_unfinished (h : StepTo t m r m') : r ≠ .failed .unfinished := by
  have hcontract : ∀ {p : String} {b a : Term κ} {m m' : Evaluator κ} {r : StepResult κ},
      contractStep p b a m = (r, m') → r ≠ .failed .unfinished := by
    intro p b a m m' r h
    rcases contractStep_cases h with ⟨e, rfl, hc⟩ | ⟨t, rfl, -⟩
    · rintro ⟨⟩
      rw [contract] at hc
      split at hc
      · next e he =>
        cases hc
        cases hb : m.budget with
        | unbounded | blank => simp [hb, Budget.refusal?] at he
        | atMost n =>
          rw [hb, Budget.refusal?] at he
          split at he <;> cases he
      · split at hc <;> cases hc
    · exact nofun
  induction h with
  | var | store | metavar | const => exact nofun
  | lam _ ih | value _ _ ih | argument _ _ _ _ _ ih | function _ _ _ ih =>
    exact fun h => ih (StepResult.map_eq_failed.1 h)
  | group _ ih => exact ih
  | redex _ hc | stored _ _ hc => exact hcontract hc

/-- A run is the one that reduction makes with any bound from some bound on. -/
theorem RunTo.reduce_add {run : Run κ} (h : RunTo t m run) :
    ∃ bound, ∀ k, reduce (bound + k) t m = run := by
  induction h with
  | normal h | failed h =>
    refine ⟨1, fun k => ?_⟩
    rw [Nat.add_comm, reduce, h.step_eq]
  | contracted h _ ih =>
    obtain ⟨bound, hb⟩ := ih
    refine ⟨bound + 1, fun k => ?_⟩
    rw [show bound + 1 + k = bound + k + 1 by omega, reduce, h.step_eq]
    simp only [hb k]

/-- A run does not say that the bound was too small. -/
theorem RunTo.ne_unfinished {run : Run κ} (h : RunTo t m run) :
    run.outcome ≠ .error .unfinished := by
  induction h with
  | normal => exact nofun
  | failed h =>
    rintro ⟨⟩
    exact h.ne_unfinished rfl
  | contracted _ _ ih => exact ih

/-- Reduction that does not say that its bound was too small has made a run. -/
theorem runTo_reduce {bound : Nat} (h : (reduce bound t m).outcome ≠ .error .unfinished) :
    RunTo t m (reduce bound t m) := by
  induction bound generalizing t m with
  | zero => exact absurd rfl h
  | succ bound ih =>
    have hstep := stepTo_step t m
    rw [reduce] at h ⊢
    split
    · next v m' hs =>
      rw [hs] at hstep
      exact .normal hstep
    · next u t' m' hs =>
      rw [hs] at hstep h
      exact .contracted hstep (ih h)
    · next e m' hs =>
      rw [hs] at hstep
      exact .failed hstep

/-- Reduction that gives a value has made a run. -/
theorem runTo_of_outcome {bound : Nat} {v : Term κ} (h : (reduce bound t m).outcome = .ok v) :
    RunTo t m (reduce bound t m) := by
  refine runTo_reduce fun hne => ?_
  rw [h] at hne
  cases hne

/-- The runs are those that reduction makes with a bound that suffices. -/
theorem runTo_iff_reduce {run : Run κ} :
    RunTo t m run ↔ run.outcome ≠ .error .unfinished ∧ ∃ bound, reduce bound t m = run := by
  refine ⟨fun h => ⟨h.ne_unfinished, ?_⟩, ?_⟩
  · obtain ⟨bound, hb⟩ := h.reduce_add
    exact ⟨bound, hb 0⟩
  · rintro ⟨hne, bound, rfl⟩
    exact runTo_reduce hne

end Evaluator

end NormalOrder
