import Mathlib
import NormalOrder.Proofs.Evaluator.BigStep
import NormalOrder.Proofs.Evaluator.BigStep.ToSteps
import NormalOrder.Proofs.Evaluator.Expansion
import NormalOrder.Proofs.Evaluator.Outcome

/-!
# A budget makes evaluation end

With a budget every evaluation comes to an end (`evaluate_terminates`). `Calls` says which evaluations
an evaluation goes on to, the one that it turns into after a contraction among them. Each is smaller
than the one before (`Calls.decreases`): either fewer contractions are left in the budget, or as many
and the term is smaller. The latter needs a reason where evaluation goes on with a result, the head of
a function: an evaluation that contracts nothing gives no larger term than it was given
(`Evaluates.spent`).
-/

namespace NormalOrder.Evaluator

variable {κ : Type} [Shown κ] {d : Depth} {p : String} {b a t v : Term κ} {m m' : Evaluator κ}
  {run : Run κ} {n : Int}

/-! ## What an evaluation spends -/

/-- What an evaluation of `t` to `v` spends of a budget of `n` contractions: nothing, and then `v` is
not larger than `t`; or some, and no more than the budget has. -/
def Spends (n : Int) (t : Term κ) (m : Evaluator κ) (v : Term κ) (m' : Evaluator κ) : Prop :=
  (m'.steps = m.steps ∧ v.size ≤ t.size) ∨ (m.steps < m'.steps ∧ (m'.steps : Int) ≤ n)

omit [Shown κ] in
/-- A contraction that a budget allows is counted, and the budget reaches that far. -/
theorem steps_of_contract (h : contract p b a m = (.ok t, m')) (hb : m.budget = .atMost n) :
    m'.budget = .atMost n ∧ m'.steps = m.steps + 1 ∧ (m'.steps : Int) ≤ n := by
  have hk := contracts_of_contract h
  have hallowed := hk.allowed
  rw [hb, Budget.refusal?] at hallowed
  split at hallowed
  · cases hallowed
  · next hle =>
    rw [hk.budget, hk.steps, hb]
    exact ⟨rfl, rfl, by omega⟩

/-- An evaluation that gives a value keeps the budget, and spends of it what it contracts. -/
theorem Evaluates.spent (h : Evaluates d t m run) (hb : m.budget = .atMost n)
    (hv : run.outcome = .ok v) : run.state.budget = .atMost n ∧ Spends n t m v run.state := by
  induction h generalizing v with
  | var | abstraction | reference | constant =>
    cases hv
    exact ⟨hb, .inl ⟨rfl, Nat.le_refl _⟩⟩
  | lam _ ih =>
    obtain ⟨w, hw, rfl⟩ := map_eq_ok.1 hv
    obtain ⟨hb', hs⟩ := ih hb hw
    refine ⟨hb', ?_⟩
    simp only [Spends, Run.map, Term.size] at hs ⊢
    omega
  | group _ ih =>
    obtain ⟨hb', hs⟩ := ih hb hv
    refine ⟨hb', ?_⟩
    simp only [Spends, Term.size] at hs ⊢
    omega
  | @bind d n' t m r _ ih =>
    have hv' : r.outcome = .ok v := hv
    obtain ⟨hb', hs⟩ := ih hb hv'
    have hstate : (r.storing n').state = r.state.commit n' v := by rw [Run.storing, hv']
    rw [hstate]
    refine ⟨hb', ?_⟩
    simp only [Spends, commit, Term.size] at hs ⊢
    omega
  | contracted _ hc _ ihf iht =>
    obtain ⟨hb', hf⟩ := ihf hb rfl
    obtain ⟨hb'', hsteps, hn⟩ := steps_of_contract hc hb'
    obtain ⟨hbt, ht⟩ := iht hb'' hv
    refine ⟨hbt, .inr ?_⟩
    simp only [Spends] at hf ht
    simp only [Run.after, Run.cons]
    omega
  | application _ _ ihf =>
    cases hv
    obtain ⟨hb', hf⟩ := ihf hb rfl
    refine ⟨hb', ?_⟩
    simp only [Spends, Term.size] at hf ⊢
    omega
  | app _ _ _ _ ihf ihw iha =>
    obtain ⟨a', ha', rfl⟩ := map_eq_ok.1 hv
    obtain ⟨hb', hf⟩ := ihf hb rfl
    obtain ⟨hb'', hw⟩ := ihw hb' rfl
    obtain ⟨hba, ha⟩ := iha hb'' ha'
    refine ⟨hba, ?_⟩
    simp only [Spends, Run.after, Run.map, Term.size] at hf hw ha ⊢
    omega
  | refused | failed | function_failed | metavar | const => cases hv

/-! ## Evaluations that an evaluation goes on to -/

/-- A term that is to be evaluated, to which depth, and the state in which it is. -/
structure Job (κ : Type) where
  depth : Depth
  term : Term κ
  state : Evaluator κ

/-- The evaluation of one term goes on to that of another: of a part, of what a part has come to, or
of a contractum in its place. -/
inductive Calls : Job κ → Job κ → Prop where
  | body (p : String) (b : Term κ) (m : Evaluator κ) : Calls ⟨.full, .lam p b, m⟩ ⟨.full, b, m⟩
  | inner (d : Depth) (t : Term κ) (m : Evaluator κ) : Calls ⟨d, .group t, m⟩ ⟨d, t, m⟩
  | value (d : Depth) (n : String) (t : Term κ) (m : Evaluator κ) :
    Calls ⟨d, .bind n t, m⟩ ⟨.full, t, m⟩
  | function (d : Depth) (f a : Term κ) (m : Evaluator κ) : Calls ⟨d, .app f a, m⟩ ⟨.head, f, m⟩
  | contractum {d : Depth} {p : String} {f b a t : Term κ} {m m' m'' : Evaluator κ}
      {tr : List (TraceEntry κ)} (hf : Evaluates .head f m ⟨.ok (.lam p b), tr, m'⟩)
      (hc : contract p b a m' = (.ok t, m'')) :
    Calls ⟨d, .app f a, m⟩ ⟨d, t, m''⟩
  | head {f v a : Term κ} {m m' : Evaluator κ} {tr : List (TraceEntry κ)}
      (hf : Evaluates .head f m ⟨.ok v, tr, m'⟩) (hv : ¬ v.IsLam) :
    Calls ⟨.full, .app f a, m⟩ ⟨.full, v, m'⟩
  | argument {f v w a : Term κ} {m m' m'' : Evaluator κ} {tr tr' : List (TraceEntry κ)}
      (hf : Evaluates .head f m ⟨.ok v, tr, m'⟩) (hv : ¬ v.IsLam)
      (hw : Evaluates .full v m' ⟨.ok w, tr', m''⟩) :
    Calls ⟨.full, .app f a, m⟩ ⟨.full, a, m''⟩

/-- How large a job is under a budget of `n` contractions: how many of them are left, and then the
size of the term. -/
def Job.measure (n : Int) (j : Job κ) : Nat × Nat := ((n - j.state.steps).toNat, j.term.size)

/-- One job is smaller than another. -/
def Job.Smaller (n : Int) (j' j : Job κ) : Prop :=
  Prod.Lex (· < ·) (· < ·) (j'.measure n) (j.measure n)

variable {j j' : Job κ}

omit [Shown κ] in
/-- A job with fewer contractions left is smaller, and so is one with as many left and a smaller
term. -/
theorem Job.smaller_of_steps
    (h : (j'.state.steps = j.state.steps ∧ j'.term.size < j.term.size) ∨
      (j.state.steps < j'.state.steps ∧ (j'.state.steps : Int) ≤ n)) : j'.Smaller n j := by
  rcases h with ⟨hs, hlt⟩ | ⟨hs, hn⟩
  · rw [Smaller, measure, measure, hs]
    exact .right _ hlt
  · refine .left _ _ ?_
    omega

/-- Every evaluation that an evaluation under a budget goes on to is under the same budget, and it is
smaller. -/
theorem Calls.decreases (h : Calls j j') (hb : j.state.budget = .atMost n) :
    j'.state.budget = .atMost n ∧ j'.Smaller n j := by
  cases h with
  | body | inner | value | function =>
    refine ⟨hb, Job.smaller_of_steps (.inl ⟨rfl, ?_⟩)⟩
    simp only [Term.size]
    omega
  | contractum hf hc =>
    obtain ⟨hb', hs⟩ := hf.spent hb rfl
    obtain ⟨hb'', hsteps, hn⟩ := steps_of_contract hc hb'
    refine ⟨hb'', Job.smaller_of_steps (.inr ?_)⟩
    simp only [Spends] at hs ⊢
    omega
  | head hf =>
    obtain ⟨hb', hs⟩ := hf.spent hb rfl
    refine ⟨hb', Job.smaller_of_steps ?_⟩
    simp only [Spends, Term.size] at hs ⊢
    omega
  | argument hf _ hw =>
    obtain ⟨hb', hs⟩ := hf.spent hb rfl
    obtain ⟨hb'', hs'⟩ := hw.spent hb' rfl
    refine ⟨hb'', Job.smaller_of_steps ?_⟩
    simp only [Spends, Term.size] at hs hs' ⊢
    omega

omit [Shown κ] in
/-- Jobs do not get smaller for ever. -/
theorem Job.wellFounded_smaller (n : Int) : WellFounded (Job.Smaller (κ := κ) n) :=
  InvImage.wf (Job.measure n) (Prod.lex Nat.lt_wfRel Nat.lt_wfRel).wf

/-- An evaluation comes to an end if all those that it goes on to do. -/
theorem exists_evaluates_of_calls (d : Depth) (t : Term κ) (m : Evaluator κ)
    (h : ∀ j, Calls ⟨d, t, m⟩ j → ∃ run, Evaluates j.depth j.term j.state run) :
    ∃ run, Evaluates d t m run := by
  cases t with
  | var x => exact ⟨_, .var d x m⟩
  | lam p b =>
    cases d with
    | head => exact ⟨_, .abstraction p b m⟩
    | full =>
      obtain ⟨run, hb⟩ := h _ (.body p b m)
      exact ⟨_, .lam hb⟩
  | group t =>
    obtain ⟨run, ht⟩ := h _ (.inner d t m)
    exact ⟨run, .group ht⟩
  | bind n t =>
    obtain ⟨run, ht⟩ := h _ (.value d n t m)
    exact ⟨_, .bind ht⟩
  | app f a =>
    obtain ⟨⟨o, tr, m'⟩, hf⟩ := h _ (.function d f a m)
    cases o with
    | error e => exact ⟨_, .failed hf⟩
    | ok v =>
      by_cases hl : v.IsLam
      · obtain ⟨p, b, rfl⟩ : ∃ p b, v = .lam p b := by
          cases v with
          | lam p b => exact ⟨p, b, rfl⟩
          | var | app | group | bind | metavar | const => exact hl.elim
        cases hc : contract p b a m' with
        | mk o m'' =>
          cases o with
          | error e => exact ⟨_, .refused hf hc⟩
          | ok t =>
            obtain ⟨run, ht⟩ := h _ (.contractum hf hc)
            exact ⟨_, .contracted hf hc ht⟩
      · cases d with
        | head => exact ⟨_, .application hf hl⟩
        | full =>
          obtain ⟨⟨o, tr', m''⟩, hw⟩ := h _ (.head hf hl)
          cases o with
          | error e => exact ⟨_, .function_failed hf hl hw⟩
          | ok w =>
            obtain ⟨run, ha⟩ := h _ (.argument hf hl hw)
            exact ⟨_, .app hf hl hw ha⟩
  | metavar n l =>
    cases d with
    | head => exact ⟨_, .reference n l m⟩
    | full => exact ⟨_, .metavar n l m⟩
  | const c =>
    cases d with
    | head => exact ⟨_, .constant c m⟩
    | full => exact ⟨_, .const c m⟩

/-- Under a budget every evaluation comes to an end. -/
theorem exists_evaluates (j : Job κ) (hb : j.state.budget = .atMost n) :
    ∃ run, Evaluates j.depth j.term j.state run := by
  induction j using (Job.wellFounded_smaller n).induction with
  | _ j ih =>
    refine exists_evaluates_of_calls j.depth j.term j.state fun j' hj' => ?_
    obtain ⟨hb', hlt⟩ := Calls.decreases (j := j) hj' hb
    exact ih j' hlt hb'

/-! ## Evaluations that begin with an expansion -/

/-- Under a budget an evaluation is not broken off, if its bound suffices. -/
theorem exists_bound (ht : t.Lacks .constant) (hb : m.budget = .atMost n) :
    ∃ bound, (evaluate bound t m).outcome ≠ .error .unfinished := by
  cases hx : expand t m.restart with
  | mk o m' =>
    obtain ⟨ho, hm'⟩ := Prod.mk.inj hx
    cases o with
    | error e =>
      obtain ⟨name, l, rfl, -⟩ := unbound_of_expandIn ht (Prod.ext ho rfl)
      refine ⟨0, ?_⟩
      rw [evaluate, hx]
      simp
    | ok t' =>
      have hb' : m'.budget = .atMost n := by rw [← hm']; exact hb
      obtain ⟨run, hrun⟩ := exists_evaluates ⟨.full, t', m'⟩ hb'
      obtain ⟨hfin, bound, rfl⟩ := evaluates_iff_reduce.1 hrun
      refine ⟨bound, ?_⟩
      rw [evaluate, hx]
      exact hfin

/-- The evaluator with a budget of `n` contractions. -/
def limited (m : Evaluator κ) (n : Int) : Evaluator κ := { m with budget := .atMost n }

/-- Where the environment holds normal terms, what an evaluation under a budget comes to. -/
theorem evaluate_limited (henv : m.environment.HoldsNormal) (ht : t.Lacks .constant) {bound : Nat}
    (hfin : (evaluate bound t (m.limited n)).outcome ≠ .error .unfinished) :
    (∃ v, (evaluate bound t (m.limited n)).outcome = .ok v) ∨
      (∃ name l, (evaluate bound t (m.limited n)).outcome = .error (.unbound name l)) ∨
      (evaluate bound t (m.limited n)).outcome = .error (.overBudget n) ∨
      (m.names.subscripts = false ∧ ∃ k,
        (evaluate bound t (m.limited n)).outcome = .error (.violation (.namesExhausted k))) := by
  have hsetup := Call.sameSetup (.evaluate bound t) (m.limited n)
  cases hr : (evaluate bound t (m.limited n)).outcome with
  | ok v => exact .inl ⟨v, rfl⟩
  | error e =>
    rcases evaluate_error (m := m.limited n) henv ht hr with
      rfl | ⟨name, l, rfl, -⟩ | hrefused | ⟨⟨k, rfl⟩, hfresh⟩
    · exact absurd hr hfin
    · exact .inr (.inl ⟨name, l, rfl⟩)
    · rw [show (evaluate bound t (m.limited n)).state.budget = .atMost n from hsetup.budget]
        at hrefused
      rcases refusal?_eq_some hrefused with ⟨n', hn', rfl⟩ | ⟨hn', -⟩
      · cases hn'
        exact .inr (.inr (.inl rfl))
      · cases hn'
    · obtain ⟨hsub, -⟩ := NameSupply.letters_of_fresh hfresh
      exact .inr (.inr (.inr ⟨hsetup.subscripts.symm.trans hsub, k, rfl⟩))

/-- In every state that calls can lead to, with its budget set to any number, and for every term:
expansion comes to an end, although it goes on in the values that it puts in; every reduction, to
either depth, comes to an end, since each that it goes on to has fewer contractions left, or as many
and a smaller term; and so the evaluation comes to an end, from some bound on with the same run. It
gives a value, or it finds a metavariable that has none, or it exceeds the budget, or, where names may
not have subscripts, it runs out of names. -/
theorem evaluate_terminates (o : Options) (calls : List (Call Empty)) (n : Int) (t : Expr) :
    (∃ r names, Expands (after o calls).environment t (after o calls).restart.names r names) ∧
    (∀ j : Job Empty, j.state.budget = .atMost n →
      (∃ run, Evaluates j.depth j.term j.state run) ∧
        ∀ j', Calls j j' → j'.state.budget = .atMost n ∧ j'.Smaller n j) ∧
    ∃ bound,
      (∀ k, evaluate (bound + k) t ((after o calls).limited n)
        = evaluate bound t ((after o calls).limited n)) ∧
      ((∃ v, (evaluate bound t ((after o calls).limited n)).outcome = .ok v) ∨
        (∃ name l, (evaluate bound t ((after o calls).limited n)).outcome
          = .error (.unbound name l)) ∨
        (evaluate bound t ((after o calls).limited n)).outcome = .error (.overBudget n) ∨
        (o.subscripts = false ∧ ∃ k, (evaluate bound t ((after o calls).limited n)).outcome
          = .error (.violation (.namesExhausted k)))) := by
  have henv : (after o calls).environment.HoldsNormal := holdsNormal_after o calls
  refine ⟨⟨_, _, expands_expandIn henv t _⟩,
    fun j hj => ⟨exists_evaluates j hj, fun j' hj' => hj'.decreases hj⟩, ?_⟩
  obtain ⟨bound, hfin⟩ := exists_bound (m := (after o calls).limited n) t.lacks_constant rfl
  refine ⟨bound, evaluate_add hfin, ?_⟩
  have hout := evaluate_limited henv t.lacks_constant hfin
  rwa [(sameSetup_after o calls).subscripts] at hout

/-- With `\x.x x` stored under `D` the expression `D D` has no normal form. With a budget of three
contractions its evaluation ends all the same, when a fourth is needed. -/
theorem evaluate_terminates_loop :
    ∃ (calls : List (Call Empty)) (t : Expr) (j : Job Empty) (bound : Nat),
      calls = [.evaluate 1 (.bind "D" (.lam "x" (.app (.var "x") (.var "x"))))] ∧
      Term.parse "D D" = .ok t ∧ j.term = t ∧ j.state = (after {} calls).limited 3 ∧
      j.state.budget = .atMost 3 ∧ (∃ run, Evaluates j.depth j.term j.state run) ∧
      ∀ k, (evaluate (bound + k) t ((after {} calls).limited 3)).outcome
        = .error (.overBudget 3) := by
  let calls : List (Call Empty) := [.evaluate 1 (.bind "D" (.lam "x" (.app (.var "x") (.var "x"))))]
  let t : Expr := .app (.metavar "D" (some ⟨1, 1⟩)) (.metavar "D" (some ⟨1, 3⟩))
  let j : Job Empty := ⟨.full, t, (after {} calls).limited 3⟩
  obtain ⟨-, hjobs, bound, hbound, -⟩ := evaluate_terminates {} calls 3 t
  have hfour : (evaluate 4 t ((after {} calls).limited 3)).outcome = .error (.overBudget 3) := by
    cbv
  have hfin : (evaluate 4 t ((after {} calls).limited 3)).outcome ≠ .error .unfinished := by
    rw [hfour]
    simp
  refine ⟨calls, t, j, bound, rfl, by cbv, rfl, rfl, rfl, (hjobs j rfl).1, fun k => ?_⟩
  rw [hbound k, ← hbound 4, Nat.add_comm, evaluate_add hfin, hfour]

end NormalOrder.Evaluator
