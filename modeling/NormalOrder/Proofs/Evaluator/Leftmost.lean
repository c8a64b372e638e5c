import NormalOrder.Proofs.Evaluator.BigStep.ToSteps
import NormalOrder.Proofs.Evaluator.Preservation
import NormalOrder.Proofs.Evaluator.Soundness

/-!
# Reduction is leftmost outermost

On plain terms, those of the λ-calculus proper, reduction contracts the leftmost outermost redex
over and over: it ends with a value after `k` contractions exactly if the leftmost sequence reaches
a normal form in `k` steps, and it runs out of a budget of `n` exactly if the sequence has more than
`n` steps (`reduce_iff_leftmostIn`). A plain term is reduced in this order whatever its binders are
called, as long as the names in use cover it and further names can be drawn (`Ready`).

Each step is one of three: it finds the term normal and leaves the state alone
(`StepTo.eq_of_plain`), it contracts the leftmost redex (`StepTo.leftmost`), or there is such a
redex and the budget does not allow the contraction (`StepTo.refused`). Which of them it is depends
on the term and the budget alone, so the step that the leftmost sequence makes next is the one that
is made (`Ready.leftmost_step`).
-/

namespace NormalOrder.Evaluator

open Nameless

variable {κ : Type} {p : String} {b f a t t' u v : Term κ} {m m' : Evaluator κ} {r : StepResult κ}
  {ρ : String → Nameless κ}

/-- A plain term that the names in use cover, in a state that never runs out of names. -/
structure Ready (t : Term κ) (m : Evaluator κ) : Prop where
  plain : t.Plain
  covered : m.names.Covers t
  subscripts : m.names.subscripts = true

namespace Ready

/-- The body of an abstraction is ready if the abstraction is. -/
theorem body (h : Ready (.lam p b) m) : Ready b m :=
  ⟨h.plain.body, (NameSupply.covers_lam.1 h.covered).2, h.subscripts⟩

/-- The function of an application is ready if the application is. -/
theorem function (h : Ready (.app f a) m) : Ready f m :=
  ⟨h.plain.function, (NameSupply.covers_app.1 h.covered).1, h.subscripts⟩

/-- The argument of an application is ready if the application is. -/
theorem argument (h : Ready (.app f a) m) : Ready a m :=
  ⟨h.plain.argument, (NameSupply.covers_app.1 h.covered).2, h.subscripts⟩

/-- What stands in parentheses is ready if the whole is. -/
theorem inner (h : Ready (.group t) m) : Ready t m :=
  ⟨h.plain.inner, h.covered, h.subscripts⟩

end Ready

/-! ## Contractions -/

/-- A contraction that fails where names do not run out was refused by the budget. -/
theorem refused_of_contract {e : EvalError} (h : contract p b a m = (.error e, m'))
    (hb : b.Lacks .metavariable) (hsub : m.names.subscripts = true) :
    m.budget.refusal? (m.steps + 1) = some e := by
  rw [contract] at h
  split at h
  · next e' he =>
    cases h
    exact he
  · obtain ⟨t, names, hs⟩ := Term.exists_subst p a hb hsub
    rw [hs] at h
    cases h

/-! ## Steps -/

variable [Shown κ]

/-- A step that finds a plain term normal leaves the state alone and drops nothing but
parentheses. -/
theorem StepTo.eq_of_plain (h : StepTo t m r m') (ht : t.Plain) (hv : r = .normal v) :
    m' = m ∧ ∀ ρ, v.readIn ρ = t.readIn ρ := by
  induction h generalizing v with
  | var =>
    cases hv
    exact ⟨rfl, fun _ => rfl⟩
  | lam _ ih =>
    obtain ⟨b', rfl, rfl⟩ := StepResult.map_eq_normal.1 hv
    obtain ⟨hm, hb'⟩ := ih ht.body rfl
    exact ⟨hm, fun ρ => by rw [Term.readIn, hb', Term.readIn]⟩
  | group _ ih => exact ih ht.inner hv
  | store => exact absurd rfl ht.binding.1
  | value hr | function _ hr => exact absurd hv (StepResult.map_ne_normal hr)
  | redex _ hc | stored _ _ hc => exact absurd hv (contractStep_ne_normal hc)
  | argument _ _ _ _ ihf iha =>
    obtain ⟨a', rfl, rfl⟩ := StepResult.map_eq_normal.1 hv
    obtain ⟨rfl, hf'⟩ := ihf ht.function rfl
    obtain ⟨rfl, ha'⟩ := iha ht.argument rfl
    exact ⟨rfl, fun ρ => by rw [Term.readIn, hf', ha', Term.readIn]⟩
  | metavar | const => cases hv

/-- A plain term that a step finds normal reads as a term without a redex. -/
theorem StepTo.normal_readIn (h : StepTo t m (.normal v) m') (ht : t.Plain)
    (hρ : ∀ x, (ρ x).IsVar) : (t.readIn ρ).Normal := by
  have hv : (v.readIn ρ).Normal := (h.normal rfl).readIn hρ
  rwa [(h.eq_of_plain ht rfl).2 ρ] at hv

/-- A plain term that is no abstraction is not found to be a normal one. -/
theorem StepTo.not_isLam_of_plain (h : StepTo f m (.normal v) m') (hf : f.Plain)
    (hl : ¬ f.ungroup.IsLam) : ¬ v.IsLam := by
  intro hv
  obtain ⟨-, hread⟩ := h.eq_of_plain hf rfl
  have hnot := hf.not_isLam_readIn (ρ := .free) hl fun _ => trivial
  rw [← hread] at hnot
  cases v with
  | lam => exact hnot trivial
  | var | app | group | bind | metavar | const => exact hv

/-- A step of a plain term leaves a plain term. -/
theorem StepTo.plain (h : StepTo t m r m') (ht : t.Plain) (hu : r.term? = some u) : u.Plain :=
  ⟨h.lacks ht.binding hu, h.lacks ht.metavariable hu, h.lacks ht.constant hu⟩

/-- A step of a ready term leaves a ready term. -/
theorem StepTo.ready (h : StepTo t m r m') (ht : Ready t m) (hu : r.term? = some u) :
    Ready u m' := by
  obtain ⟨hg, hcov⟩ := h.covers ht.covered hu
  exact ⟨h.plain ht.plain hu, hcov, hg.subscripts.trans ht.subscripts⟩

/-- A step that contracts a redex of a ready term contracts the leftmost one. -/
theorem StepTo.leftmost (h : StepTo t m r m') (ht : Ready t m) (hu : r = .contracted u t')
    (hρ : ∀ x, (ρ x).IsVar) : Leftmost (t.readIn ρ) (t'.readIn ρ) := by
  induction h generalizing u t' ρ with
  | var | store | metavar | const => cases hu
  | lam _ ih =>
    obtain ⟨b', rfl, rfl⟩ := StepResult.map_eq_contracted.1 hu
    exact .lam (ih ht.body rfl (Term.isVar_underBinder hρ))
  | group _ ih => exact ih ht.inner hu hρ
  | value => exact absurd rfl ht.plain.binding.1
  | redex hf hc =>
    subst hu
    obtain ⟨-, hk⟩ := contracts_of_contractStep hc rfl
    have hcl := covers_of_ungroup hf ht.function.covered
    rw [hk.readIn hcl ht.argument.covered, Term.readIn, ← Term.readIn_ungroup, hf]
    exact .redex _ _
  | stored hl hf => exact absurd trivial (hf.not_isLam_of_plain ht.function.plain hl)
  | argument hl hf _ _ _ iha =>
    obtain ⟨a', rfl, rfl⟩ := StepResult.map_eq_contracted.1 hu
    obtain ⟨rfl, hread⟩ := hf.eq_of_plain ht.function.plain rfl
    have hn := hf.normal_readIn ht.function.plain hρ
    rw [Term.readIn, Term.readIn, hread]
    exact .argument (ht.function.plain.not_isLam_readIn hl hρ) hn (iha ht.argument rfl hρ)
  | function hl _ _ ih =>
    obtain ⟨f', rfl, rfl⟩ := StepResult.map_eq_contracted.1 hu
    exact .function (ht.function.plain.not_isLam_readIn hl hρ) (ih ht.function rfl hρ)

/-- A step of a ready term fails only if there is a redex and the budget does not allow its
contraction. -/
theorem StepTo.refused {e : EvalError} (h : StepTo t m r m') (ht : Ready t m) (he : r = .failed e)
    (hρ : ∀ x, (ρ x).IsVar) :
    m.budget.refusal? (m.steps + 1) = some e ∧ ∃ w, Leftmost (t.readIn ρ) w := by
  induction h generalizing ρ with
  | var | store => cases he
  | lam _ ih =>
    obtain ⟨hr, w, hw⟩ := ih ht.body (StepResult.map_eq_failed.1 he) (Term.isVar_underBinder hρ)
    exact ⟨hr, _, .lam hw⟩
  | group _ ih => exact ih ht.inner he hρ
  | value => exact absurd rfl ht.plain.binding.1
  | redex hf hc =>
    have hlam := ht.function.plain.ungroup
    rw [hf] at hlam
    rcases contractStep_cases hc with ⟨e', rfl, hk⟩ | ⟨t', rfl, -⟩
    · cases he
      refine ⟨refused_of_contract hk hlam.body.metavariable ht.subscripts, ?_⟩
      rw [Term.readIn, ← Term.readIn_ungroup, hf]
      exact ⟨_, .redex _ _⟩
    · cases he
  | stored hl hf => exact absurd trivial (hf.not_isLam_of_plain ht.function.plain hl)
  | argument hl hf _ _ _ iha =>
    obtain ⟨rfl, -⟩ := hf.eq_of_plain ht.function.plain rfl
    have hn := hf.normal_readIn ht.function.plain hρ
    obtain ⟨hr, w, hw⟩ := iha ht.argument (StepResult.map_eq_failed.1 he) hρ
    exact ⟨hr, _, .argument (ht.function.plain.not_isLam_readIn hl hρ) hn hw⟩
  | function hl _ _ ih =>
    obtain ⟨hr, w, hw⟩ := ih ht.function (StepResult.map_eq_failed.1 he) hρ
    exact ⟨hr, _, .function (ht.function.plain.not_isLam_readIn hl hρ) hw⟩
  | metavar => exact absurd rfl ht.plain.metavariable
  | const => exact absurd rfl ht.plain.constant

/-! ## The step that a ready term makes -/

variable {k n : Nat} {w : Nameless κ} {run : Run κ}

/-- A ready term without a redex is found to be normal. -/
theorem Ready.normal_step (ht : Ready t m) (hρ : ∀ x, (ρ x).IsVar) (hn : (t.readIn ρ).Normal) :
    ∃ v, StepTo t m (.normal v) m ∧ v.readIn ρ = t.readIn ρ := by
  have hstep := stepTo_step t m
  cases hr : (step t m).1 with
  | normal v =>
    rw [hr] at hstep
    obtain ⟨hm, hread⟩ := hstep.eq_of_plain ht.plain rfl
    rw [hm] at hstep
    exact ⟨v, hstep, hread ρ⟩
  | contracted u t' => exact absurd (hstep.leftmost ht hr hρ).beta (hn _)
  | failed e =>
    obtain ⟨-, w, hw⟩ := hstep.refused ht hr hρ
    exact absurd hw.beta (hn w)

/-- A ready term with a leftmost redex has it contracted if the budget allows that. -/
theorem Ready.leftmost_step (ht : Ready t m) (hρ : ∀ x, (ρ x).IsVar)
    (hl : Leftmost (t.readIn ρ) w) (hyes : m.budget.refusal? (m.steps + 1) = none) :
    ∃ u t' m', StepTo t m (.contracted u t') m' ∧ t'.readIn ρ = w := by
  have hstep := stepTo_step t m
  cases hr : (step t m).1 with
  | normal v =>
    rw [hr] at hstep
    exact absurd hl.beta (hstep.normal_readIn ht.plain hρ w)
  | contracted u t' =>
    rw [hr] at hstep
    exact ⟨u, t', _, hstep, (hstep.leftmost ht rfl hρ).unique hl⟩
  | failed e =>
    obtain ⟨hno, -⟩ := hstep.refused ht hr hρ
    rw [hyes] at hno
    cases hno

/-- A ready term with a leftmost redex fails if the budget does not allow its contraction. -/
theorem Ready.refused_step {e : EvalError} (ht : Ready t m) (hρ : ∀ x, (ρ x).IsVar)
    (hl : Leftmost (t.readIn ρ) w) (hno : m.budget.refusal? (m.steps + 1) = some e) :
    ∃ m', StepTo t m (.failed e) m' := by
  have hstep := stepTo_step t m
  cases hr : (step t m).1 with
  | normal v =>
    rw [hr] at hstep
    exact absurd hl.beta (hstep.normal_readIn ht.plain hρ w)
  | contracted u t' =>
    obtain ⟨-, hyes⟩ := hstep.steps_of_contracted hr
    rw [hno] at hyes
    cases hyes
  | failed e' =>
    obtain ⟨hno', -⟩ := hstep.refused ht hr hρ
    obtain rfl : e = e' := Option.some.inj (hno.symm.trans hno')
    rw [hr] at hstep
    exact ⟨_, hstep⟩

/-! ## Runs -/

/-- A budget of `n` contractions refuses those after the first `n`. -/
theorem refusal?_atMost {e : EvalError} :
    (Budget.atMost n).refusal? k = some e ↔ n < k ∧ e = .overBudget n := by
  rw [Budget.refusal?]
  split
  · next h => simp [Int.ofNat_lt.1 h, eq_comm]
  · next h => simp [mt Int.ofNat_lt.2 h]

/-- A budget of `n` contractions allows the first `n`. -/
theorem refusal?_atMost_eq_none : (Budget.atMost n).refusal? k = none ↔ k ≤ n := by
  rw [Budget.refusal?]
  split
  · next h => simp [Int.ofNat_lt.1 h]
  · next h =>
    have hle : k ≤ n := by omega
    simp [hle]

/-- A run that gives a value contracts the leftmost redex each time and ends where there is none. -/
theorem RunTo.leftmostIn (h : RunTo t m run) (ht : Ready t m) (hv : run.outcome = .ok v)
    (hρ : ∀ x, (ρ x).IsVar) :
    ∃ k, run.state.steps = m.steps + k ∧ LeftmostIn k (t.readIn ρ) (v.readIn ρ) := by
  induction h with
  | normal h =>
    cases hv
    obtain ⟨rfl, hread⟩ := h.eq_of_plain ht.plain rfl
    rw [hread]
    exact ⟨0, rfl, .refl _⟩
  | failed => cases hv
  | contracted h _ ih =>
    obtain ⟨k, hk, hs⟩ := ih (h.ready ht rfl) hv
    obtain ⟨hsteps, -⟩ := h.steps_of_contracted rfl
    refine ⟨k + 1, ?_, .head (h.leftmost ht rfl hρ) hs⟩
    rw [Run.state_cons]
    omega

/-- Where the leftmost sequence ends there is a run without a budget that ends there. -/
theorem exists_runTo (hs : LeftmostIn k (t.readIn ρ) w) (hw : w.Normal) (ht : Ready t m)
    (hb : m.budget = .unbounded) (hρ : ∀ x, (ρ x).IsVar) :
    ∃ run v, RunTo t m run ∧ run.outcome = .ok v ∧ v.readIn ρ = w ∧
      run.state.steps = m.steps + k := by
  generalize hu : t.readIn ρ = u at hs
  induction hs generalizing t m with
  | refl u =>
    subst hu
    obtain ⟨v, hstep, hread⟩ := ht.normal_step hρ hw
    exact ⟨_, v, .normal hstep, rfl, hread, rfl⟩
  | head hl _ ih =>
    subst hu
    obtain ⟨u, t', m', hstep, hread⟩ := ht.leftmost_step hρ hl (by rw [hb]; rfl)
    obtain ⟨hsteps, -⟩ := hstep.steps_of_contracted rfl
    obtain ⟨run, v, hrun, hv, hvw, hk⟩ :=
      ih hw (hstep.ready ht rfl) (hstep.budget_eq.trans hb) hread
    refine ⟨_, v, .contracted hstep hrun, hv, hvw, ?_⟩
    rw [Run.state_cons]
    omega

/-- A run that exceeds its budget of `n` contractions has `n` of them behind it and one more before
it. -/
theorem RunTo.leftmostIn_of_overBudget (h : RunTo t m run) (ht : Ready t m)
    (hb : m.budget = .atMost n) (hn : m.steps ≤ n)
    (he : run.outcome = .error (.overBudget n)) (hρ : ∀ x, (ρ x).IsVar) :
    ∃ k w, m.steps + k = n + 1 ∧ LeftmostIn k (t.readIn ρ) w := by
  induction h with
  | normal => cases he
  | failed h =>
    cases he
    obtain ⟨hno, w, hw⟩ := h.refused ht rfl hρ
    rw [hb, refusal?_atMost] at hno
    exact ⟨1, w, by omega, .head hw (.refl w)⟩
  | contracted h _ ih =>
    obtain ⟨hsteps, hyes⟩ := h.steps_of_contracted rfl
    rw [hb, refusal?_atMost_eq_none] at hyes
    obtain ⟨k, w, hk, hs⟩ := ih (h.ready ht rfl) (h.budget_eq.trans hb) (by omega) he
    exact ⟨k + 1, w, by omega, .head (h.leftmost ht rfl hρ) hs⟩

/-- Where the leftmost sequence is longer than the budget there is a run that exceeds it. -/
theorem exists_runTo_overBudget (hs : LeftmostIn k (t.readIn ρ) w) (ht : Ready t m)
    (hb : m.budget = .atMost n) (hn : m.steps ≤ n) (hk : m.steps + k = n + 1)
    (hρ : ∀ x, (ρ x).IsVar) :
    ∃ run, RunTo t m run ∧ run.outcome = .error (.overBudget n) := by
  generalize hu : t.readIn ρ = u at hs
  induction hs generalizing t m with
  | refl => omega
  | head hl _ ih =>
    subst hu
    cases hr : m.budget.refusal? (m.steps + 1) with
    | none =>
      obtain ⟨u, t', m', hstep, hread⟩ := ht.leftmost_step hρ hl hr
      obtain ⟨hsteps, -⟩ := hstep.steps_of_contracted rfl
      rw [hb, refusal?_atMost_eq_none] at hr
      obtain ⟨run, hrun, he⟩ := ih (hstep.ready ht rfl) (hstep.budget_eq.trans hb)
        (by omega) (by omega) hread
      exact ⟨_, .contracted hstep hrun, he⟩
    | some e =>
      obtain ⟨m', hstep⟩ := ht.refused_step hρ hl hr
      rw [hb, refusal?_atMost] at hr
      obtain ⟨-, rfl⟩ := hr
      exact ⟨_, .failed hstep, rfl⟩

/-- On a plain term, with names that never run out and cover it, reduction is leftmost outermost
reduction: without a budget it gives a value after `k` contractions if the leftmost sequence
reaches a normal form, that of the value, in `k` steps, and not otherwise; with a budget of `n` it
exceeds the budget if the sequence has more than `n` steps, and not otherwise. It is the same
whether it is done step by step or by evaluating heads first. -/
theorem reduce_iff_leftmostIn (ht : t.Plain) (hcov : m.names.Covers t)
    (hsub : m.names.subscripts = true) (hsteps : m.steps = 0) :
    (m.budget = .unbounded → ∀ k w,
      (∃ bound v, (reduce bound t m).outcome = .ok v ∧ (reduce bound t m).state.steps = k ∧
          v.nameless = w) ↔
        LeftmostIn k t.nameless w ∧ w.Normal) ∧
    (∀ n : Nat, m.budget = .atMost n →
      ((∃ bound, (reduce bound t m).outcome = .error (.overBudget n)) ↔
        ∃ w, LeftmostIn (n + 1) t.nameless w)) ∧
    ∀ run, Evaluates .full t m run ↔
      run.outcome ≠ .error .unfinished ∧ ∃ bound, reduce bound t m = run := by
  have hready : Ready t m := ⟨ht, hcov, hsub⟩
  have hρ : ∀ x, (free x : Nameless κ).IsVar := fun _ => trivial
  simp only [Term.nameless_eq_readIn]
  refine ⟨fun hb k w => ⟨?_, ?_⟩, fun n hb => ⟨?_, ?_⟩, fun run => evaluates_iff_reduce⟩
  · rintro ⟨bound, v, hv, rfl, rfl⟩
    have hrun := runTo_of_outcome hv
    obtain ⟨k, hk, hs⟩ := hrun.leftmostIn hready hv hρ
    rw [hk, hsteps, Nat.zero_add]
    exact ⟨hs, (hrun.normal_value hv).readIn hρ⟩
  · rintro ⟨hs, hw⟩
    obtain ⟨run, v, hrun, hv, hvw, hk⟩ := exists_runTo hs hw hready hb hρ
    obtain ⟨-, bound, rfl⟩ := runTo_iff_reduce.1 hrun
    rw [hsteps, Nat.zero_add] at hk
    exact ⟨bound, v, hv, hk, hvw⟩
  · rintro ⟨bound, he⟩
    have hrun : RunTo t m (reduce bound t m) := by
      refine runTo_reduce fun hne => ?_
      rw [he] at hne
      cases hne
    obtain ⟨k, w, hk, hs⟩ := hrun.leftmostIn_of_overBudget hready hb (by omega) he hρ
    obtain rfl : k = n + 1 := by omega
    exact ⟨w, hs⟩
  · rintro ⟨w, hs⟩
    obtain ⟨run, hrun, he⟩ := exists_runTo_overBudget hs hready hb (by omega) (by omega) hρ
    obtain ⟨-, bound, rfl⟩ := runTo_iff_reduce.1 hrun
    exact ⟨bound, he⟩

/-- The identity applied to a variable is contracted once. -/
theorem reduce_identity :
    ∃ (t : Expr) (m : Evaluator Empty), t.Plain ∧ m.names.Covers t ∧ m.names.subscripts = true ∧
      m.steps = 0 ∧ t.nameless = .app (.lam (.bound 0)) (.free "y") ∧
      ∃ bound v, (reduce bound t m).outcome = .ok v ∧ (reduce bound t m).state.steps = 1 ∧
        v.nameless = .free "y" := by
  let t : Expr := .app (.lam "x" (.var "x")) (.var "y")
  let m : Evaluator Empty :=
    { blank { subscripts := true } with names := (NameSupply.new true).useAll t.names }
  have ht : t.Plain := Term.plain_expr ⟨trivial, trivial⟩ ⟨trivial, trivial⟩
  have hcov : m.names.Covers t := fun x hx => (NameSupply.contains_useAll _ _ x).2 (.inl hx)
  refine ⟨t, m, ht, hcov, rfl, rfl, rfl, ?_⟩
  obtain ⟨hunbounded, -⟩ := reduce_iff_leftmostIn ht hcov rfl rfl
  exact (hunbounded rfl 1 _).2 ⟨.head (.redex _ _) (.refl _), normal_free "y"⟩

end NormalOrder.Evaluator
