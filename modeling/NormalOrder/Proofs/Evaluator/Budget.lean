import Mathlib
import NormalOrder.Proofs.Evaluator.BigStep
import NormalOrder.Proofs.Evaluator.Outcome

/-!
# A budget only cuts a run short

Under a larger budget an evaluation does what it does under a smaller one, for as long as the smaller
one allows it (`evaluate_budget`). If it comes to a value under the smaller budget, it comes to the same
value under the larger one, with the same state. If it exceeds the smaller budget of `n` contractions, it
goes the same way under the larger one for `n` contractions, and comes upon one more redex then.

A step that looks for a redex may store values on its way to it. What is stored when the redex is about
to be contracted is told by `Finds`, which leads to a redex as `StepTo` does, and stops in front of it. A
step from there is the contraction of this redex, if there is one (`Finds.stepTo`, `StepTo.finds`). The
way there, and every contraction that the smaller budget allows, is the same under the larger budget
(`Finds.withBudget`, `StepTo.withBudget`).
-/

namespace NormalOrder

variable {κ : Type}

/-- Whether a budget allows at least `n` contractions. -/
def Budget.AtLeast (n : Nat) : Budget → Prop
  | unbounded => True
  | atMost k => n ≤ k
  | blank => False

/-- A budget of at least `n` contractions refuses none of the first `n`. -/
theorem Budget.AtLeast.refusal?_eq_none {b : Budget} {n k : Nat} (h : b.AtLeast n)
    (hk : (Budget.atMost n).refusal? k = none) : b.refusal? k = none := by
  rw [refusal?] at hk
  split at hk
  · cases hk
  · next hle =>
    cases b with
    | unbounded => rfl
    | blank => exact h.elim
    | atMost l =>
      have hl : (n : Int) ≤ l := h
      exact if_neg (by omega)

namespace Evaluator

variable {n : Nat} {b : Budget} {p : String} {f a t t' u c : Term κ} {us : List (Term κ)}
  {m m' : Evaluator κ} {r : StepResult κ}

/-- The evaluator with another budget. -/
def withBudget (m : Evaluator κ) (b : Budget) : Evaluator κ := { m with budget := b }

/-- A contraction that a budget allows is the same under a larger one. -/
theorem contract_withBudget (h : contract p c a m = (.ok u, m')) (hm : m.budget = .atMost n)
    (hb : b.AtLeast n) : contract p c a (m.withBudget b) = (.ok u, m'.withBudget b) := by
  have hallowed := (contracts_of_contract h).allowed
  rw [hm] at hallowed
  have hallowed' : (m.withBudget b).budget.refusal? (m.steps + 1) = none :=
    hb.refusal?_eq_none hallowed
  rw [contract] at h ⊢
  simp only [hm, hallowed] at h
  simp only [withBudget] at hallowed' ⊢
  simp only [hallowed']
  split at h
  · cases h
  · next hs =>
    cases h
    rfl

/-- A contraction of the whole term that a budget allows is the same under a larger one. -/
theorem contractStep_withBudget (h : contractStep p c a m = (r, m')) (hu : r.term? = some u)
    (hm : m.budget = .atMost n) (hb : b.AtLeast n) :
    contractStep p c a (m.withBudget b) = (r, m'.withBudget b) := by
  rw [contractStep] at h ⊢
  split at h
  · cases h
    cases hu
  · next hc =>
    cases h
    rw [contract_withBudget hc hm hb]

/-! ## Redexes that are about to be contracted -/

/-- A redex that is about to be contracted. -/
structure Redex (κ : Type) where
  param : String
  body : Term κ
  argument : Term κ
  /-- The whole term, with another term in the place of the redex. -/
  around : Term κ → Term κ
  /-- The state in which the redex is about to be contracted. -/
  state : Evaluator κ

namespace Redex

/-- The redex inside a larger term. -/
def inside (q : Redex κ) (f : Term κ → Term κ) : Redex κ :=
  { q with around := fun t => f (q.around t) }

/-- The contraction of the redex in its state. -/
def contract (q : Redex κ) : Except EvalError (Term κ) × Evaluator κ :=
  Evaluator.contract q.param q.body q.argument q.state

/-- The contraction of the redex as a step of the whole term. -/
def step (q : Redex κ) : StepResult κ × Evaluator κ :=
  match q.contract with
  | (.error e, m') => (.failed e, m')
  | (.ok u, m') => (.contracted u (q.around u), m')

/-- The redex under another budget. -/
def withBudget (q : Redex κ) (b : Budget) : Redex κ := { q with state := q.state.withBudget b }

/-- The step of a larger term contracts what the step of the term inside contracts. -/
theorem step_inside (q : Redex κ) (f : Term κ → Term κ) :
    (q.inside f).step = (q.step.1.map f, q.step.2) := by
  rw [step, step, show (q.inside f).contract = q.contract from rfl]
  split <;> rfl

/-- The step of a redex that is the whole term is its contraction. -/
theorem step_whole (p : String) (c a : Term κ) (m : Evaluator κ) :
    (⟨p, c, a, id, m⟩ : Redex κ).step = contractStep p c a m := by
  rw [step, contractStep, contract]
  split
  · next h => rw [h]
  · next h => rw [h]; rfl

/-- The step of a redex finds one. -/
theorem not_isNormal_step (q : Redex κ) : ¬ q.step.1.IsNormal := by
  rw [step]
  split <;> exact id

/-- The step of a redex fails as its contraction does. -/
theorem contract_of_step_failed {q : Redex κ} {e : EvalError} (h : q.step = (.failed e, m)) :
    q.contract = (.error e, m) := by
  rw [step] at h
  split at h
  · next hc =>
    cases h
    exact hc
  · cases h

end Redex

variable [Shown κ] {q : Redex κ}

/-! ## Steps under two budgets -/

/-- A step that does not fail under a budget is the same under a larger one. -/
theorem StepTo.withBudget (h : StepTo t m r m') (hu : r.term? = some u) (hm : m.budget = .atMost n)
    (hb : b.AtLeast n) : StepTo t (m.withBudget b) r (m'.withBudget b) := by
  induction h generalizing u with
  | var x m => exact .var x _
  | lam _ ih =>
    obtain ⟨b', hb', -⟩ := StepResult.term?_map_eq_some.1 hu
    exact .lam (ih hb' hm)
  | group _ ih => exact .group (ih hu hm)
  | store _ ih => exact .store (ih hu hm)
  | value hr _ ih =>
    obtain ⟨t', ht', -⟩ := StepResult.term?_map_eq_some.1 hu
    exact .value hr (ih ht' hm)
  | redex hf hc => exact .redex hf (contractStep_withBudget hc hu hm hb)
  | stored hl hf hc ih =>
    exact .stored hl (ih rfl hm) (contractStep_withBudget hc hu (hf.budget_eq.trans hm) hb)
  | argument hl hf hv _ ihf iha =>
    obtain ⟨a', ha', -⟩ := StepResult.term?_map_eq_some.1 hu
    exact .argument hl (ihf rfl hm) hv (iha ha' (hf.budget_eq.trans hm))
  | function hl hr _ ih =>
    obtain ⟨f', hf', -⟩ := StepResult.term?_map_eq_some.1 hu
    exact .function hl hr (ih hf' hm)
  | metavar | const => cases hu

/-- A step of a term comes upon a redex: the ways to it. -/
inductive Finds : Term κ → Evaluator κ → Redex κ → Prop where
  | lam {p : String} {b : Term κ} {m : Evaluator κ} {q : Redex κ} (hb : Finds b m q) :
    Finds (.lam p b) m (q.inside (.lam p))
  | group {t : Term κ} {m : Evaluator κ} {q : Redex κ} (ht : Finds t m q) : Finds (.group t) m q
  | value {n : String} {t : Term κ} {m : Evaluator κ} {q : Redex κ} (ht : Finds t m q) :
    Finds (.bind n t) m (q.inside (.bind n))
  | redex {p : String} {f b a : Term κ} {m : Evaluator κ} (hf : f.ungroup = .lam p b) :
    Finds (.app f a) m ⟨p, b, a, id, m⟩
  | stored {p : String} {f b a : Term κ} {m m' : Evaluator κ} (hl : ¬ f.ungroup.IsLam)
      (hf : StepTo f m (.normal (.lam p b)) m') :
    Finds (.app f a) m ⟨p, b, a, id, m'⟩
  | argument {f v a : Term κ} {m m' : Evaluator κ} {q : Redex κ} (hl : ¬ f.ungroup.IsLam)
      (hf : StepTo f m (.normal v) m') (hv : ¬ v.IsLam) (ha : Finds a m' q) :
    Finds (.app f a) m (q.inside (.app v))
  | function {f a : Term κ} {m : Evaluator κ} {q : Redex κ} (hl : ¬ f.ungroup.IsLam)
      (hf : Finds f m q) :
    Finds (.app f a) m (q.inside (.app · a))

/-- A step that comes upon a redex contracts it. -/
theorem Finds.stepTo (h : Finds t m q) : StepTo t m q.step.1 q.step.2 := by
  induction h with
  | lam _ ih =>
    rw [Redex.step_inside]
    exact .lam ih
  | group _ ih => exact .group ih
  | @value n t m q _ ih =>
    rw [Redex.step_inside]
    exact .value q.not_isNormal_step ih
  | redex hf =>
    rw [Redex.step_whole]
    exact .redex hf rfl
  | stored hl hf =>
    rw [Redex.step_whole]
    exact .stored hl hf rfl
  | argument hl hf hv _ ih =>
    rw [Redex.step_inside]
    exact .argument hl hf hv ih
  | @function f a m q hl _ ih =>
    rw [Redex.step_inside]
    exact .function hl q.not_isNormal_step ih

/-- A step that finds the term not normal, and breaks no assumption, has come upon a redex. -/
theorem StepTo.finds (h : StepTo t m r m') (hr : ¬ r.IsNormal)
    (hv : ∀ v, r ≠ .failed (.violation v)) : ∃ q, Finds t m q ∧ q.step = (r, m') := by
  have hinside : ∀ {f : Term κ → Term κ} {r : StepResult κ}, ¬ (r.map f).IsNormal →
      (∀ v, r.map f ≠ .failed (.violation v)) →
      ¬ r.IsNormal ∧ ∀ v, r ≠ .failed (.violation v) := by
    intro f r hr hv
    cases r with
    | normal v => exact absurd trivial hr
    | contracted => exact ⟨id, nofun⟩
    | failed e =>
      refine ⟨id, fun v he => hv v ?_⟩
      cases he
      rfl
  induction h with
  | var | store => exact absurd trivial hr
  | metavar | const => exact absurd rfl (hv _)
  | lam _ ih =>
    obtain ⟨hr', hv'⟩ := hinside hr hv
    obtain ⟨q, hq, hstep⟩ := ih hr' hv'
    exact ⟨_, .lam hq, by rw [Redex.step_inside, hstep]⟩
  | group _ ih =>
    obtain ⟨q, hq, hstep⟩ := ih hr hv
    exact ⟨q, .group hq, hstep⟩
  | value hr' _ ih =>
    obtain ⟨-, hv'⟩ := hinside hr hv
    obtain ⟨q, hq, hstep⟩ := ih hr' hv'
    exact ⟨_, .value hq, by rw [Redex.step_inside, hstep]⟩
  | redex hf hc => exact ⟨_, .redex hf, by rw [Redex.step_whole, hc]⟩
  | stored hl hf hc => exact ⟨_, .stored hl hf, by rw [Redex.step_whole, hc]⟩
  | argument hl hf hw _ _ iha =>
    obtain ⟨hr', hv'⟩ := hinside hr hv
    obtain ⟨q, hq, hstep⟩ := iha hr' hv'
    exact ⟨_, .argument hl hf hw hq, by rw [Redex.step_inside, hstep]⟩
  | function hl hr' _ ih =>
    obtain ⟨-, hv'⟩ := hinside hr hv
    obtain ⟨q, hq, hstep⟩ := ih hr' hv'
    exact ⟨_, .function hl hq, by rw [Redex.step_inside, hstep]⟩

/-- The way to a redex is the same under a larger budget. -/
theorem Finds.withBudget (h : Finds t m q) (hm : m.budget = .atMost n) (hb : b.AtLeast n) :
    Finds t (m.withBudget b) (q.withBudget b) := by
  induction h with
  | lam _ ih => exact .lam (ih hm)
  | group _ ih => exact .group (ih hm)
  | value _ ih => exact .value (ih hm)
  | redex hf => exact .redex hf
  | stored hl hf => exact .stored hl (hf.withBudget rfl hm hb)
  | argument hl hf hv _ ih =>
    exact .argument hl (hf.withBudget rfl hm hb) hv (ih (hf.budget_eq.trans hm))
  | function hl _ ih => exact .function hl (ih hm)

/-- On the way to a redex nothing is counted, and the budget stays. -/
theorem Finds.counts (h : Finds t m q) : q.state.steps = m.steps ∧ q.state.budget = m.budget := by
  induction h with
  | lam _ ih | group _ ih | value _ ih | function _ _ ih => exact ih
  | redex => exact ⟨rfl, rfl⟩
  | stored _ hf => exact ⟨hf.steps_of_normal rfl, hf.budget_eq⟩
  | argument _ hf _ _ ih =>
    exact ⟨ih.1.trans (hf.steps_of_normal rfl), ih.2.trans hf.budget_eq⟩

/-! ## Contractions one after another -/

/-- Steps of a term that contract redexes to the terms of a list, one after another. -/
inductive Contractions : Term κ → Evaluator κ → List (Term κ) → Term κ → Evaluator κ → Prop where
  | none (t : Term κ) (m : Evaluator κ) : Contractions t m [] t m
  | first {t t' t'' u : Term κ} {us : List (Term κ)} {m m' m'' : Evaluator κ}
      (h : StepTo t m (.contracted u t') m') (hs : Contractions t' m' us t'' m'') :
    Contractions t m (u :: us) t'' m''

/-- Contractions under a budget are the same under a larger one. -/
theorem Contractions.withBudget (h : Contractions t m us t' m') (hm : m.budget = .atMost n)
    (hb : b.AtLeast n) : Contractions t (m.withBudget b) us t' (m'.withBudget b) := by
  induction h with
  | none t m => exact .none t _
  | first h _ ih => exact .first (h.withBudget rfl hm hb) (ih (h.budget_eq.trans hm))

/-- Contractions leave the budget as it is. -/
theorem Contractions.budget_eq (h : Contractions t m us t' m') : m'.budget = m.budget := by
  induction h with
  | none => rfl
  | first h _ ih => exact ih.trans h.budget_eq

/-- A reduction makes the contractions and goes on from there. -/
theorem Contractions.reduce_add (h : Contractions t m us t' m') (k : Nat) :
    reduce (us.length + k) t m = (reduce k t' m').after (us.map .contraction) := by
  induction h with
  | none t m =>
    rw [List.length_nil, Nat.zero_add]
    rfl
  | @first t t' t'' u us m m' m'' h _ ih =>
    rw [show (u :: us).length + k = us.length + k + 1 by rw [List.length_cons]; omega, reduce,
      h.step_eq]
    simp only [ih]
    rfl

/-- A reduction that makes contractions and comes upon one more redex begins with these contractions.
After them it fails, or it contracts the redex, too. -/
theorem Contractions.trace_reduce (h : Contractions t m us t' m') (hq : Finds t' m' q) (k : Nat) :
    ∃ rest, (reduce (us.length + (k + 1)) t m).trace = us.map .contraction ++ rest ∧
      ((∃ e, (reduce (us.length + (k + 1)) t m).outcome = .error e ∧ e ≠ .unfinished) ∨
        ∃ u rest', rest = .contraction u :: rest') := by
  have hstep := hq.stepTo
  have hredex := q.not_isNormal_step
  rw [h.reduce_add, reduce, hstep.step_eq]
  generalize q.step = out at hstep hredex
  obtain ⟨r, m''⟩ := out
  cases r with
  | normal v => exact absurd trivial hredex
  | contracted u t'' => exact ⟨_, rfl, .inr ⟨u, _, rfl⟩⟩
  | failed e =>
    refine ⟨[], rfl, .inl ⟨e, rfl, ?_⟩⟩
    rintro rfl
    exact hstep.ne_unfinished rfl

/-! ## Reductions under two budgets -/

variable {bound : Nat}

/-- A reduction that comes to a value under a budget comes to it under a larger one, with the same
trace and the same state apart from the budget. -/
theorem reduce_withBudget {v : Term κ} (h : (reduce bound t m).outcome = .ok v)
    (hm : m.budget = .atMost n) (hb : b.AtLeast n) (hs : m.steps ≤ n) :
    reduce bound t (m.withBudget b)
        = { reduce bound t m with state := (reduce bound t m).state.withBudget b } ∧
      (reduce bound t m).state.steps ≤ n := by
  induction bound generalizing t m with
  | zero => cases h
  | succ bound ih =>
    have hstep := stepTo_step t m
    rw [reduce] at h
    generalize hout : step t m = out at h hstep
    obtain ⟨r, m'⟩ := out
    cases r with
    | normal w =>
      have hstep' : StepTo t m (.normal w) m' := hstep
      rw [reduce, reduce, hout, (hstep'.withBudget rfl hm hb).step_eq]
      exact ⟨rfl, by rw [hstep'.steps_of_normal rfl]; exact hs⟩
    | contracted u t' =>
      have hstep' : StepTo t m (.contracted u t') m' := hstep
      have hm' := hstep'.budget_eq.trans hm
      obtain ⟨hcount, hallowed⟩ := hstep'.steps_of_contracted rfl
      have hs' : m'.steps ≤ n := by
        rw [hm, Budget.refusal?] at hallowed
        split at hallowed
        · cases hallowed
        · omega
      obtain ⟨hrun, hle⟩ := ih h hm' hs'
      rw [reduce, reduce, hout, (hstep'.withBudget rfl hm hb).step_eq]
      simp only [hrun]
      exact ⟨rfl, hle⟩
    | failed e => cases h

/-- A reduction that exceeds its budget of `n` contractions has made `n`, and has come upon one more
redex. What it has stored is what was stored then. -/
theorem contractions_of_overBudget (h : (reduce bound t m).outcome = .error (.overBudget n))
    (hm : m.budget = .atMost n) (hs : m.steps ≤ n) :
    ∃ us t' m' q, Contractions t m us t' m' ∧ m.steps + us.length = n ∧ Finds t' m' q ∧
      us.length < bound ∧ (reduce bound t m).trace = us.map .contraction ∧
      (reduce bound t m).state.environment = q.state.environment := by
  induction bound generalizing t m with
  | zero => cases h
  | succ bound ih =>
    have hstep := stepTo_step t m
    rw [reduce] at h
    generalize hout : step t m = out at h hstep
    obtain ⟨r, m'⟩ := out
    rw [reduce, hout]
    cases r with
    | normal w => cases h
    | contracted u t' =>
      have hstep' : StepTo t m (.contracted u t') m' := hstep
      obtain ⟨hcount, hallowed⟩ := hstep'.steps_of_contracted rfl
      rw [hm, Budget.refusal?] at hallowed
      split at hallowed
      · cases hallowed
      · next hle =>
        obtain ⟨us, t'', m'', q, hus, hlen, hq, hbound, htrace, henv⟩ :=
          ih h (hstep'.budget_eq.trans hm) (by omega)
        refine ⟨u :: us, t'', m'', q, .first hstep' hus, ?_, hq, ?_, ?_, henv⟩
        · rw [List.length_cons]
          omega
        · rw [List.length_cons]
          omega
        · exact congrArg (TraceEntry.contraction u :: ·) htrace
    | failed e =>
      cases h
      have hstep' : StepTo t m (.failed (.overBudget n)) m' := hstep
      obtain ⟨q, hq, hqstep⟩ := hstep'.finds id (by simp)
      have hc := Redex.contract_of_step_failed hqstep
      obtain ⟨hcount, hbudget⟩ := hq.counts
      refine ⟨[], t, m, q, .none t m, ?_, hq, Nat.succ_pos _, rfl, ?_⟩
      · rw [Redex.contract, contract, hbudget, hm, Budget.refusal?, hcount] at hc
        simp only [List.length_nil] at hc ⊢
        split at hc
        · next hrefused =>
          split at hrefused
          · omega
          · cases hrefused
        · split at hc <;> cases hc
      · have henv := environment_contract q.param q.body q.argument q.state
        rw [Redex.contract] at hc
        rwa [hc] at henv

/-! ## Evaluations under two budgets -/

/-- Expansion does not look at the budget. -/
theorem expand_withBudget (t : Term κ) (m : Evaluator κ) (b : Budget) :
    expand t (m.withBudget b).restart
      = ((expand t m.restart).1, (expand t m.restart).2.withBudget b) := rfl

/-- What expansion leaves has nothing counted, and the budget that it was given. -/
theorem counts_of_expand {m₀ : Evaluator κ} (h : expand t m.restart = (.ok t', m₀)) :
    m₀.steps = 0 ∧ m₀.budget = m.budget := by
  obtain ⟨-, rfl⟩ := Prod.mk.inj h
  exact ⟨rfl, rfl⟩

/-- An evaluation that comes to a value under a budget comes to it under a larger one, with the same
trace and the same state apart from the budget. -/
theorem evaluate_withBudget {v : Term κ} (h : (evaluate bound t m).outcome = .ok v)
    (hm : m.budget = .atMost n) (hb : b.AtLeast n) :
    evaluate bound t (m.withBudget b)
        = { evaluate bound t m with state := (evaluate bound t m).state.withBudget b } ∧
      (evaluate bound t m).state.steps ≤ n := by
  rw [evaluate] at h
  rw [evaluate, evaluate, expand_withBudget]
  generalize hx : expand t m.restart = x at h
  obtain ⟨o, m₀⟩ := x
  cases o with
  | error e => cases h
  | ok t₀ =>
    obtain ⟨hsteps, hbudget⟩ := counts_of_expand hx
    obtain ⟨hrun, hle⟩ := reduce_withBudget h (hbudget.trans hm) hb (by omega)
    simp only [hrun]
    exact ⟨rfl, hle⟩

/-- An evaluation that exceeds its budget of `n` contractions has made `n`, and has come upon one more
redex. -/
theorem contractions_of_evaluate (h : (evaluate bound t m).outcome = .error (.overBudget n))
    (hm : m.budget = .atMost n) :
    ∃ t₀ m₀ us t₁ m₁ q,
      expand t m.restart = (.ok t₀, m₀) ∧ Contractions t₀ m₀ us t₁ m₁ ∧ us.length = n ∧
      Finds t₁ m₁ q ∧ us.length < bound ∧
      (evaluate bound t m).trace = .expansion t₀ :: us.map .contraction ∧
      (evaluate bound t m).state.environment = q.state.environment := by
  rw [evaluate] at h ⊢
  generalize hx : expand t m.restart = x at h
  obtain ⟨o, m₀⟩ := x
  cases o with
  | error e =>
    cases h
    obtain ⟨ho, -⟩ := Prod.mk.inj hx
    rcases fails_of_expandIn (Prod.ext ho rfl) with ⟨_, _, he, -⟩ | ⟨⟨_, he⟩, -⟩
    · cases he
    · cases he
  | ok t₀ =>
    obtain ⟨hsteps, hbudget⟩ := counts_of_expand hx
    obtain ⟨us, t₁, m₁, q, hus, hlen, hq, hbound, htrace, henv⟩ :=
      contractions_of_overBudget h (hbudget.trans hm) (by omega)
    exact ⟨t₀, m₀, us, t₁, m₁, q, rfl, hus, by omega, hq, hbound,
      congrArg (TraceEntry.expansion t₀ :: ·) htrace, henv⟩

/-- An evaluation that makes contractions and comes upon one more redex begins with these contractions.
After them it fails, or it contracts the redex, too. -/
theorem Contractions.trace_evaluate {m₀ : Evaluator κ} (hx : expand t m.restart = (.ok u, m₀))
    (h : Contractions u m₀ us t' m') (hq : Finds t' m' q) (k : Nat) :
    ∃ rest, (evaluate (us.length + (k + 1)) t m).trace
        = .expansion u :: us.map .contraction ++ rest ∧
      ((∃ e, (evaluate (us.length + (k + 1)) t m).outcome = .error e ∧ e ≠ .unfinished) ∨
        ∃ c rest', rest = .contraction c :: rest') := by
  obtain ⟨rest, hrest, hcase⟩ := h.trace_reduce hq k
  rw [evaluate, hx]
  exact ⟨rest, congrArg (TraceEntry.expansion u :: ·) hrest, hcase⟩

/-- In every state: what the evaluation of a term under a budget of `n` contractions tells of its
evaluation under a budget of at least `n`. If it comes to a value, it comes to the same value under the
larger budget, with the same trace, and leaves the same environment, the same names in use and the same
count of contractions, at most `n`. If it exceeds its budget, then it has gone through `n` contractions,
which are those that the larger budget begins with. The larger budget comes upon one more redex then,
and what is stored at that moment is what the smaller budget has left. After it, the evaluation under the
larger budget fails or makes more contractions, whether it comes to an end or not. -/
theorem evaluate_budget (hb : b.AtLeast n) (bound : Nat) (t : Term κ) (m : Evaluator κ) :
    (∀ v, (evaluate bound t (m.withBudget (.atMost n))).outcome = .ok v →
      (evaluate bound t (m.withBudget b)).outcome = .ok v ∧
      (evaluate bound t (m.withBudget b)).trace
        = (evaluate bound t (m.withBudget (.atMost n))).trace ∧
      (evaluate bound t (m.withBudget b)).state.environment
        = (evaluate bound t (m.withBudget (.atMost n))).state.environment ∧
      (evaluate bound t (m.withBudget b)).state.names
        = (evaluate bound t (m.withBudget (.atMost n))).state.names ∧
      (evaluate bound t (m.withBudget b)).state.steps
        = (evaluate bound t (m.withBudget (.atMost n))).state.steps ∧
      (evaluate bound t (m.withBudget (.atMost n))).state.steps ≤ n) ∧
    ((evaluate bound t (m.withBudget (.atMost n))).outcome = .error (.overBudget n) →
      ∃ t₀ m₀ us t₁ m₁ q,
        expand t (m.withBudget b).restart = (.ok t₀, m₀) ∧
        Contractions t₀ m₀ us t₁ m₁ ∧ us.length = n ∧ Finds t₁ m₁ q ∧ step t₁ m₁ = q.step ∧
        (evaluate bound t (m.withBudget (.atMost n))).trace
          = .expansion t₀ :: us.map .contraction ∧
        (evaluate bound t (m.withBudget (.atMost n))).state.environment = q.state.environment ∧
        ∀ k, ∃ rest,
          (evaluate (bound + k) t (m.withBudget b)).trace
            = (evaluate bound t (m.withBudget (.atMost n))).trace ++ rest ∧
          ((∃ e, (evaluate (bound + k) t (m.withBudget b)).outcome = .error e ∧ e ≠ .unfinished) ∨
            ∃ u rest', rest = .contraction u :: rest')) := by
  let small := m.withBudget (.atMost n)
  have hlarge : m.withBudget b = small.withBudget b := rfl
  refine ⟨fun v hv => ?_, fun he => ?_⟩
  · obtain ⟨hrun, hle⟩ := evaluate_withBudget (m := small) hv rfl hb
    rw [hlarge, hrun]
    exact ⟨hv, rfl, rfl, rfl, rfl, hle⟩
  · obtain ⟨t₀, m₀, us, t₁, m₁, q, hx, hus, hlen, hq, hbound, htrace, henv⟩ :=
      contractions_of_evaluate (m := small) he rfl
    obtain ⟨-, hbudget⟩ := counts_of_expand hx
    have hx' : expand t (m.withBudget b).restart = (.ok t₀, m₀.withBudget b) := by
      rw [hlarge, expand_withBudget, hx]
    have hus' := hus.withBudget hbudget hb
    have hq' := hq.withBudget (hus.budget_eq.trans hbudget) hb
    refine ⟨t₀, _, us, t₁, _, _, hx', hus', hlen, hq', hq'.stepTo.step_eq, htrace, henv, fun k => ?_⟩
    obtain ⟨j, rfl⟩ := Nat.exists_eq_add_of_lt hbound
    obtain ⟨rest, hrest, hcase⟩ := hus'.trace_evaluate hx' hq' (j + k)
    rw [show us.length + (j + k + 1) = us.length + j + 1 + k by omega] at hrest hcase
    exact ⟨rest, by rw [hrest, htrace], hcase⟩

/-- With a budget of one contraction `(\x.x) y (A <- w) ((\x.x) z)` exceeds it. By then `A` is stored,
as it is without a budget when the second redex is about to be contracted. -/
theorem evaluate_budget_stored :
    ∃ (t t₀ t₁ u : Expr) (m₀ m₁ : Evaluator Empty) (q : Redex Empty),
      Term.parse "(\\x.x) y (A <- w) ((\\x.x) z)" = .ok t ∧ Budget.unbounded.AtLeast 1 ∧
      (evaluate 3 t ((blank {}).withBudget (.atMost 1))).outcome = .error (.overBudget 1) ∧
      (evaluate 3 t ((blank {}).withBudget (.atMost 1))).state.environment.entries
        = [("A", .var "w")] ∧
      expand t ((blank {}).withBudget .unbounded).restart = (.ok t₀, m₀) ∧
      Contractions t₀ m₀ [u] t₁ m₁ ∧ Finds t₁ m₁ q ∧
      q.state.environment.entries = [("A", .var "w")] ∧
      (evaluate 3 t ((blank {}).withBudget .unbounded)).outcome
        = .ok (.app (.app (.var "y") (.var "w")) (.var "z")) := by
  let t : Expr := .app (.app (.app (.group (.lam "x" (.var "x"))) (.var "y"))
    (.group (.bind "A" (.var "w")))) (.group (.app (.group (.lam "x" (.var "x"))) (.var "z")))
  have he : (evaluate 3 t ((blank {}).withBudget (.atMost 1))).outcome = .error (.overBudget 1) := by
    cbv
  have hstored : (evaluate 3 t ((blank {}).withBudget (.atMost 1))).state.environment.entries
      = [("A", .var "w")] := by cbv
  obtain ⟨-, hcut⟩ := evaluate_budget (n := 1) (b := .unbounded) trivial 3 t (blank {})
  obtain ⟨t₀, m₀, us, t₁, m₁, q, hx, hus, hlen, hq, -, -, henv, -⟩ := hcut he
  obtain ⟨u, rfl⟩ := List.length_eq_one_iff.1 hlen
  have hmoment : q.state.environment.entries = [("A", .var "w")] := by
    rw [← henv]
    exact hstored
  exact ⟨t, t₀, t₁, u, m₀, m₁, q, by cbv, trivial, he, hstored, hx, hus, hq, hmoment, by cbv⟩

end Evaluator

end NormalOrder
