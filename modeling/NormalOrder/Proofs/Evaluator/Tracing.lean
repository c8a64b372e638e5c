import NormalOrder.Proofs.Evaluator.BigStep.ToSteps
import NormalOrder.Proofs.Evaluator.Budget
import NormalOrder.Reporter

/-!
# Traces of evaluations

An evaluation may be listened to. It then tells its listener what it expanded the term to, and the result of
each contraction as soon as it is made, wherever in the term it is made: the listener is handed on to each
part of the term that is evaluated, together with the state of the evaluation (`Tells`,
`EvaluatesTelling`). The trace of an evaluation is what it tells, in this order, and a listener changes
nothing else (`evaluatesTelling_iff`). So the reporter of a session may as well be told all the steps when
the evaluation has ended (`evaluatesTelling_reporter`).

The trace of an evaluation whose term is expanded consists of the expansion and of the contractions that
lead from it to the last term (`exists_contractions`). They are as many as are counted, and under a budget
that is exceeded as many as it allows (`evaluate_traced`).
-/

namespace NormalOrder

/-- A reporter reports steps one after another. -/
theorem Reporter.steps_eq_foldl {κ : Type} [Shown κ] (r : Reporter) (trace : List (TraceEntry κ)) :
    r.steps trace = trace.foldl (fun r e => r.step e.tag e.text) r := by
  rw [steps]
  cases hverbose : r.verbose with
  | false =>
    have hstep : ∀ e : TraceEntry κ, r.step e.tag e.text = r := fun e => by
      rw [step, hverbose]
      rfl
    rw [if_neg Bool.false_ne_true]
    induction trace with
    | nil => rfl
    | cons e trace ih =>
      rw [List.foldl_cons, hstep]
      exact ih
  | true =>
    rw [if_pos rfl]
    induction trace generalizing r with
    | nil => rw [List.map_nil, notifyAll, List.append_nil, List.foldl_nil]
    | cons e trace ih =>
      have hstep : r.step e.tag e.text = r.notify (.step e.tag e.text) := by
        rw [step, hverbose]
        rfl
      rw [List.foldl_cons, hstep, ← ih (r.notify (.step e.tag e.text)) hverbose, notifyAll, notifyAll,
        List.map_cons, List.append_cons]
      rfl

namespace Evaluator

variable {κ σ : Type}

/-- What a listener, if there is one, becomes when it is told an entry. -/
def told (listener : Option (σ → TraceEntry κ → σ)) (s : σ) (e : TraceEntry κ) : σ :=
  match listener with
  | some hear => hear s e
  | none => s

variable [Shown κ]

/-! ## Evaluations that are listened to -/

/-- Evaluation of a term to a depth that tells a listener, if there is one, of each contraction. From `s` on
the listener comes to be `s'`. -/
inductive Tells (listener : Option (σ → TraceEntry κ → σ)) :
    Depth → Term κ → Evaluator κ → σ → Except EvalError (Term κ) → Evaluator κ → σ → Prop where
  | var (d : Depth) (x : String) (m : Evaluator κ) (s : σ) :
    Tells listener d (.var x) m s (.ok (.var x)) m s
  | abstraction (p : String) (b : Term κ) (m : Evaluator κ) (s : σ) :
    Tells listener .head (.lam p b) m s (.ok (.lam p b)) m s
  | lam {p : String} {b : Term κ} {m m' : Evaluator κ} {s s' : σ} {o : Except EvalError (Term κ)}
      (hb : Tells listener .full b m s o m' s') :
    Tells listener .full (.lam p b) m s (o.map (.lam p)) m' s'
  | group {d : Depth} {t : Term κ} {m m' : Evaluator κ} {s s' : σ} {o : Except EvalError (Term κ)}
      (ht : Tells listener d t m s o m' s') :
    Tells listener d (.group t) m s o m' s'
  | bind {d : Depth} {n : String} {t v : Term κ} {m m' : Evaluator κ} {s s' : σ}
      (ht : Tells listener .full t m s (.ok v) m' s') :
    Tells listener d (.bind n t) m s (.ok v) (m'.commit n v) s'
  | bind_failed {d : Depth} {n : String} {t : Term κ} {m m' : Evaluator κ} {s s' : σ} {e : EvalError}
      (ht : Tells listener .full t m s (.error e) m' s') :
    Tells listener d (.bind n t) m s (.error e) m' s'
  | contracted {d : Depth} {p : String} {f b a t : Term κ} {m m₁ m₂ m' : Evaluator κ} {s s₁ s' : σ}
      {o : Except EvalError (Term κ)} (hf : Tells listener .head f m s (.ok (.lam p b)) m₁ s₁)
      (hc : contract p b a m₁ = (.ok t, m₂))
      (ht : Tells listener d t m₂ (told listener s₁ (.contraction t)) o m' s') :
    Tells listener d (.app f a) m s o m' s'
  | refused {d : Depth} {p : String} {f b a : Term κ} {m m₁ m' : Evaluator κ} {s s' : σ} {e : EvalError}
      (hf : Tells listener .head f m s (.ok (.lam p b)) m₁ s')
      (hc : contract p b a m₁ = (.error e, m')) :
    Tells listener d (.app f a) m s (.error e) m' s'
  | failed {d : Depth} {f a : Term κ} {m m' : Evaluator κ} {s s' : σ} {e : EvalError}
      (hf : Tells listener .head f m s (.error e) m' s') :
    Tells listener d (.app f a) m s (.error e) m' s'
  | application {f v a : Term κ} {m m' : Evaluator κ} {s s' : σ}
      (hf : Tells listener .head f m s (.ok v) m' s') (hv : ¬ v.IsLam) :
    Tells listener .head (.app f a) m s (.ok (.app v a)) m' s'
  | app {f v w a : Term κ} {m m₁ m₂ m' : Evaluator κ} {s s₁ s₂ s' : σ} {o : Except EvalError (Term κ)}
      (hf : Tells listener .head f m s (.ok v) m₁ s₁) (hv : ¬ v.IsLam)
      (hw : Tells listener .full v m₁ s₁ (.ok w) m₂ s₂) (ha : Tells listener .full a m₂ s₂ o m' s') :
    Tells listener .full (.app f a) m s (o.map (.app w)) m' s'
  | function_failed {f v a : Term κ} {m m₁ m' : Evaluator κ} {s s₁ s' : σ} {e : EvalError}
      (hf : Tells listener .head f m s (.ok v) m₁ s₁) (hv : ¬ v.IsLam)
      (hw : Tells listener .full v m₁ s₁ (.error e) m' s') :
    Tells listener .full (.app f a) m s (.error e) m' s'
  | reference (n : String) (l : Option Location) (m : Evaluator κ) (s : σ) :
    Tells listener .head (.metavar n l) m s (.ok (.metavar n l)) m s
  | metavar (n : String) (l : Option Location) (m : Evaluator κ) (s : σ) :
    Tells listener .full (.metavar n l) m s (.error (.violation (.unexpanded n .reduction))) m s
  | constant (c : κ) (m : Evaluator κ) (s : σ) :
    Tells listener .head (.const c) m s (.ok (.const c)) m s
  | const (c : κ) (m : Evaluator κ) (s : σ) :
    Tells listener .full (.const c) m s
      (.error (.violation (.notExpression (Shown.shown c) .reduce))) m s

/-- Evaluation of a term from its expansion on that tells a listener, if there is one. -/
inductive EvaluatesTelling (listener : Option (σ → TraceEntry κ → σ)) (t : Term κ) (m : Evaluator κ)
    (s : σ) : Except EvalError (Term κ) → Evaluator κ → σ → Prop where
  | unexpanded {m' : Evaluator κ} {e : EvalError} (hx : expand t m.restart = (.error e, m')) :
    EvaluatesTelling listener t m s (.error e) m' s
  | expanded {t₀ : Term κ} {m₀ m' : Evaluator κ} {s' : σ} {o : Except EvalError (Term κ)}
      (hx : expand t m.restart = (.ok t₀, m₀))
      (ht : Tells listener .full t₀ m₀ (told listener s (.expansion t₀)) o m' s') :
    EvaluatesTelling listener t m s o m' s'

variable {listener : Option (σ → TraceEntry κ → σ)} {d : Depth} {t t₀ t' : Term κ} {us : List (Term κ)}
  {m m₀ m' : Evaluator κ} {s s' : σ} {o : Except EvalError (Term κ)} {run : Run κ} {bound : Nat}

/-- An evaluation that is listened to tells the entries of a trace. -/
theorem Tells.exists_trace (h : Tells listener d t m s o m' s') :
    ∃ tr, Evaluates d t m ⟨o, tr, m'⟩ ∧ s' = tr.foldl (told listener) s := by
  induction h with
  | var d x m s => exact ⟨[], .var d x m, rfl⟩
  | abstraction p b m s => exact ⟨[], .abstraction p b m, rfl⟩
  | lam _ ih =>
    obtain ⟨tr, hb, rfl⟩ := ih
    exact ⟨tr, .lam hb, rfl⟩
  | group _ ih =>
    obtain ⟨tr, ht, rfl⟩ := ih
    exact ⟨tr, .group ht, rfl⟩
  | bind _ ih | bind_failed _ ih =>
    obtain ⟨tr, ht, rfl⟩ := ih
    exact ⟨tr, .bind ht, rfl⟩
  | @contracted d p f b a t m m₁ m₂ m' s s₁ s' o _ hc _ ihf iht =>
    obtain ⟨tr, hf, rfl⟩ := ihf
    obtain ⟨tr', ht, rfl⟩ := iht
    exact ⟨tr ++ .contraction t :: tr', .contracted hf hc ht, by rw [List.foldl_append]; rfl⟩
  | refused _ hc ihf =>
    obtain ⟨tr, hf, rfl⟩ := ihf
    exact ⟨tr, .refused hf hc, rfl⟩
  | failed _ ihf =>
    obtain ⟨tr, hf, rfl⟩ := ihf
    exact ⟨tr, .failed hf, rfl⟩
  | application _ hv ihf =>
    obtain ⟨tr, hf, rfl⟩ := ihf
    exact ⟨tr, .application hf hv, rfl⟩
  | app _ hv _ _ ihf ihw iha =>
    obtain ⟨tr, hf, rfl⟩ := ihf
    obtain ⟨tr', hw, rfl⟩ := ihw
    obtain ⟨tr'', ha, rfl⟩ := iha
    exact ⟨tr ++ (tr' ++ tr''), .app hf hv hw ha, by rw [List.foldl_append, List.foldl_append]⟩
  | function_failed _ hv _ ihf ihw =>
    obtain ⟨tr, hf, rfl⟩ := ihf
    obtain ⟨tr', hw, rfl⟩ := ihw
    exact ⟨tr ++ tr', .function_failed hf hv hw, List.foldl_append.symm⟩
  | reference n l m s => exact ⟨[], .reference n l m, rfl⟩
  | metavar n l m s => exact ⟨[], .metavar n l m, rfl⟩
  | constant c m s => exact ⟨[], .constant c m, rfl⟩
  | const c m s => exact ⟨[], .const c m, rfl⟩

/-- Every evaluation can be listened to, and tells the entries of its trace. -/
theorem Evaluates.tells (h : Evaluates d t m run) (s : σ) :
    Tells listener d t m s run.outcome run.state (run.trace.foldl (told listener) s) := by
  induction h generalizing s with
  | var d x m => exact .var d x m s
  | abstraction p b m => exact .abstraction p b m s
  | lam _ ih => exact .lam (ih s)
  | group _ ih => exact .group (ih s)
  | @bind d n t m r _ ih =>
    have ht := ih s
    cases hr : r.outcome with
    | ok v =>
      rw [hr] at ht
      rw [Run.storing, hr]
      exact .bind ht
    | error e =>
      rw [hr] at ht
      rw [Run.storing, hr]
      exact .bind_failed ht
  | @contracted d p f b a t m m' m'' tr r _ hc _ ihf iht =>
    have ht := iht (told listener (tr.foldl (told listener) s) (.contraction t))
    rw [← List.foldl_cons, ← List.foldl_append] at ht
    exact .contracted (ihf s) hc ht
  | refused _ hc ihf => exact .refused (ihf s) hc
  | failed _ ihf => exact .failed (ihf s)
  | application _ hv ihf => exact .application (ihf s) hv
  | @app f v w a m m' m'' tr tr' r _ hv _ _ ihf ihw iha =>
    have htrace : (((r.map (.app w)).after tr').after tr).trace = tr ++ (tr' ++ r.trace) := rfl
    rw [htrace, List.foldl_append, List.foldl_append]
    exact .app (ihf s) hv (ihw _) (iha _)
  | @function_failed f v a m m' m'' tr tr' e _ hv _ ihf ihw =>
    have hw := ihw (tr.foldl (told listener) s)
    rw [← List.foldl_append] at hw
    exact .function_failed (ihf s) hv hw
  | reference n l m => exact .reference n l m s
  | metavar n l m => exact .metavar n l m s
  | constant c m => exact .constant c m s
  | const c m => exact .const c m s

/-- An evaluation of a term that is listened to, from the expansion on, is one that is not broken off. Its
listener is told the trace. -/
theorem evaluatesTelling_iff :
    EvaluatesTelling listener t m s o m' s' ↔
      o ≠ .error .unfinished ∧ ∃ bound, (evaluate bound t m).outcome = o ∧
        (evaluate bound t m).state = m' ∧
        s' = (evaluate bound t m).trace.foldl (told listener) s := by
  constructor
  · intro h
    cases h with
    | @unexpanded m' e hx =>
      obtain ⟨ho, -⟩ := Prod.mk.inj hx
      refine ⟨?_, 0, by rw [evaluate, hx]; exact ⟨rfl, rfl, rfl⟩⟩
      rintro ⟨⟩
      rcases fails_of_expandIn (Prod.ext ho rfl) with ⟨_, _, he, -⟩ | ⟨⟨_, he⟩, -⟩
      · cases he
      · cases he
    | @expanded t₀ m₀ _ _ _ hx ht =>
      obtain ⟨tr, htr, rfl⟩ := ht.exists_trace
      obtain ⟨hfin, bound, hrun⟩ := evaluates_iff_reduce.1 htr
      refine ⟨hfin, bound, ?_⟩
      rw [evaluate, hx]
      simp only [hrun]
      exact ⟨rfl, rfl, rfl⟩
  · rintro ⟨hfin, bound, rfl, rfl, rfl⟩
    cases hx : expand t m.restart with
    | mk r m₀ =>
      rw [evaluate, hx] at hfin ⊢
      cases r with
      | error e => exact .unexpanded hx
      | ok t₀ =>
        have hrun : Evaluates .full t₀ m₀ (reduce bound t₀ m₀) :=
          evaluates_iff_reduce.2 ⟨hfin, bound, rfl⟩
        exact .expanded hx (hrun.tells _)

/-- A reporter that is told every step when it is made is left as one that is told all of them when the
evaluation has ended. -/
theorem evaluatesTelling_reporter {r r' : Reporter} :
    EvaluatesTelling (some fun r e => r.step e.tag e.text) t m r o m' r' ↔
      o ≠ .error .unfinished ∧ ∃ bound, (evaluate bound t m).outcome = o ∧
        (evaluate bound t m).state = m' ∧ r' = r.steps (evaluate bound t m).trace := by
  simp only [Reporter.steps_eq_foldl]
  exact evaluatesTelling_iff

/-- An evaluation that is listened to comes to the same, and leaves the same state, as one that is not. -/
theorem exists_evaluatesTelling_iff {hear : σ → TraceEntry κ → σ} :
    (∃ s', EvaluatesTelling (some hear) t m s o m' s') ↔ EvaluatesTelling none t m s o m' s := by
  have hnone : ∀ tr : List (TraceEntry κ), tr.foldl (told none) s = s := by
    intro tr
    induction tr with
    | nil => rfl
    | cons e tr ih => exact ih
  constructor
  · rintro ⟨s', h⟩
    obtain ⟨hfin, bound, ho, hm', -⟩ := evaluatesTelling_iff.1 h
    exact evaluatesTelling_iff.2 ⟨hfin, bound, ho, hm', (hnone _).symm⟩
  · intro h
    obtain ⟨hfin, bound, ho, hm', -⟩ := evaluatesTelling_iff.1 h
    exact ⟨_, evaluatesTelling_iff.2 ⟨hfin, bound, ho, hm', rfl⟩⟩

/-! ## Traces of contractions -/

/-- How a reduction ends that has come to a term: no redex is left in it, or its step fails, or the reduction
is broken off there. -/
inductive EndsIn (t : Term κ) (m : Evaluator κ) : Run κ → Prop where
  | normal {v : Term κ} {m' : Evaluator κ} (h : StepTo t m (.normal v) m') : EndsIn t m ⟨.ok v, [], m'⟩
  | failed {e : EvalError} {m' : Evaluator κ} (h : StepTo t m (.failed e) m') :
    EndsIn t m ⟨.error e, [], m'⟩
  | broken : EndsIn t m ⟨.error .unfinished, [], m⟩

/-- A reduction makes contractions, one after another, and tells of nothing else. -/
theorem exists_contractions (bound : Nat) (t : Term κ) (m : Evaluator κ) :
    ∃ us t' m' last, Contractions t m us t' m' ∧ EndsIn t' m' last ∧
      reduce bound t m = last.after (us.map .contraction) := by
  induction bound generalizing t m with
  | zero => exact ⟨[], t, m, _, .none t m, .broken, rfl⟩
  | succ bound ih =>
    have hstep := stepTo_step t m
    rw [reduce]
    generalize step t m = out at hstep
    obtain ⟨r, m'⟩ := out
    cases r with
    | normal v => exact ⟨[], t, m, _, .none t m, .normal hstep, rfl⟩
    | contracted u t' =>
      obtain ⟨us, t'', m'', last, hus, hlast, hrun⟩ := ih t' m'
      refine ⟨u :: us, t'', m'', last, .first hstep hus, hlast, ?_⟩
      simp only [hrun]
      rfl
    | failed e => exact ⟨[], t, m, _, .none t m, .failed hstep, rfl⟩

/-- Contractions are counted. -/
theorem Contractions.steps_eq (h : Contractions t m us t' m') : m'.steps = m.steps + us.length := by
  induction h with
  | none => rfl
  | first h _ ih =>
    obtain ⟨hcount, -⟩ := h.steps_of_contracted rfl
    rw [List.length_cons]
    omega

/-- Only a step under a budget of `n` contractions says that it exceeds a budget of `n`. -/
theorem StepTo.budget_of_overBudget {n : Int} (h : StepTo t m (.failed (.overBudget n)) m') :
    m.budget = .atMost n := by
  obtain ⟨q, hq, hstep⟩ := h.finds id (by simp)
  have hc := Redex.contract_of_step_failed hstep
  obtain ⟨-, hbudget⟩ := hq.counts
  rw [Redex.contract, contract] at hc
  split at hc
  · next hrefused =>
    cases hc
    rcases refusal?_eq_some hrefused with ⟨n', hn', he⟩ | ⟨-, he⟩
    · cases he
      exact hbudget.symm.trans hn'
    · cases he
  · split at hc <;> cases hc

/-- A reduction that ends in a term tells of no contraction any more. -/
theorem EndsIn.trace_eq (h : EndsIn t m run) : run.trace = [] := by
  cases h with
  | normal | failed | broken => rfl

/-- A reduction that ends in a normal term counts no contraction any more. -/
theorem EndsIn.steps_eq {v : Term κ} (h : EndsIn t m run) (hv : run.outcome = .ok v) :
    run.state.steps = m.steps := by
  cases h with
  | normal h => exact h.steps_of_normal rfl
  | failed | broken => cases hv

/-- Only under a budget of `n` contractions does a reduction end because this is exceeded. -/
theorem EndsIn.budget_of_overBudget {n : Int} (h : EndsIn t m run)
    (he : run.outcome = .error (.overBudget n)) : m.budget = .atMost n := by
  cases h with
  | failed h =>
    cases he
    exact h.budget_of_overBudget
  | normal | broken => cases he

/-- In every state and for every term. An evaluation that fails to expand the term has an empty trace. The
trace of any other consists of what the term is expanded to, and of the results of the contractions that
lead from there to the last term, in their order, none left out and none added: the next step finds that
term normal, or it fails, or the evaluation is broken off. If the evaluation comes to a value, it has
counted as many contractions as are in the trace; if it exceeds a budget that is not negative, as many are
in the trace as this allows. Whoever listens to an evaluation that is not broken off is told the trace, entry
by entry, and the evaluation comes to the same and leaves the same state as one that nobody listens to. -/
theorem evaluate_traced (t : Term κ) (m : Evaluator κ) :
    (∀ e m₀, expand t m.restart = (.error e, m₀) →
      ∀ bound, evaluate bound t m = ⟨.error e, [], m₀⟩) ∧
    (∀ t₀ m₀, expand t m.restart = (.ok t₀, m₀) → ∀ bound, ∃ us t₁ m₁ last,
      Contractions t₀ m₀ us t₁ m₁ ∧ EndsIn t₁ m₁ last ∧
      evaluate bound t m = last.after (.expansion t₀ :: us.map .contraction) ∧
      (∀ v, last.outcome = .ok v → us.length = last.state.steps) ∧
      ∀ n : Int, 0 ≤ n → last.outcome = .error (.overBudget n) → us.length = n) ∧
    ∀ (σ : Type) (hear : σ → TraceEntry κ → σ) (s : σ) (o : Except EvalError (Term κ))
      (m' : Evaluator κ),
      (∀ s', EvaluatesTelling (some hear) t m s o m' s' ↔
        o ≠ .error .unfinished ∧ ∃ bound, (evaluate bound t m).outcome = o ∧
          (evaluate bound t m).state = m' ∧ s' = (evaluate bound t m).trace.foldl hear s) ∧
      ((∃ s', EvaluatesTelling (some hear) t m s o m' s') ↔
        EvaluatesTelling none t m s o m' s) := by
  refine ⟨fun e m₀ hx bound => by rw [evaluate, hx], fun t₀ m₀ hx bound => ?_,
    fun σ hear s o m' => ⟨fun s' => evaluatesTelling_iff, exists_evaluatesTelling_iff⟩⟩
  obtain ⟨us, t₁, m₁, last, hus, hlast, hrun⟩ := exists_contractions bound t₀ m₀
  obtain ⟨hsteps, hbudget⟩ := counts_of_expand hx
  have heval : evaluate bound t m = last.after (.expansion t₀ :: us.map .contraction) := by
    rw [evaluate, hx]
    simp only [hrun]
    rfl
  refine ⟨us, t₁, m₁, last, hus, hlast, heval, fun v hv => ?_, fun n hn he => ?_⟩
  · have hcount := hus.steps_eq
    rw [hlast.steps_eq hv]
    omega
  · obtain ⟨k, rfl⟩ := Int.eq_ofNat_of_zero_le hn
    have hm : m.budget = .atMost k :=
      hbudget.symm.trans (hus.budget_eq.symm.trans (hlast.budget_of_overBudget he))
    have hexceeded : (evaluate bound t m).outcome = .error (.overBudget k) := by
      rw [heval]
      exact he
    -- As many contractions as the budget allows stand in the trace, and these are the ones.
    obtain ⟨t₀', m₀', us', t₁', m₁', q, -, -, hlen, -, -, htrace, -⟩ :=
      contractions_of_evaluate hexceeded hm
    rw [heval, Run.after, hlast.trace_eq, List.append_nil] at htrace
    have hlen' := congrArg List.length htrace
    simp only [List.length_cons, List.length_map] at hlen'
    omega

/-- `(\x.x x) (A <- (\y.y) z)` makes three contractions: of the whole, in the head, and in the argument. Under
a budget of two the last one is neither made nor told of. `Q` is not expanded, since it has no value. -/
theorem evaluate_traced_three :
    ∃ (t : Expr) (m' : Evaluator Empty) (us : List Expr),
      Term.parse "(\\x.x x) (A <- (\\y.y) z)" = .ok t ∧
      EvaluatesTelling (some fun tags e => tags ++ [e.tag]) t (blank {}) []
        (.ok (.app (.var "z") (.var "z"))) m' ["δ", "β", "β", "β"] ∧
      m'.steps = 3 ∧
      (evaluate 4 t ((blank {}).withBudget (.atMost 2))).outcome = .error (.overBudget 2) ∧
      (evaluate 4 t ((blank {}).withBudget (.atMost 2))).trace = .expansion t :: us.map .contraction ∧
      us.length = 2 ∧
      (evaluate 4 (.metavar "Q" none) (blank {} : Evaluator Empty)).trace = [] := by
  let t : Expr := .app (.group (.lam "x" (.app (.var "x") (.var "x"))))
    (.group (.bind "A" (.app (.group (.lam "y" (.var "y"))) (.var "z"))))
  let small : Evaluator Empty := (blank {}).withBudget (.atMost 2)
  have hv : (evaluate 4 t (blank {})).outcome = .ok (.app (.var "z") (.var "z")) := by cbv
  have hsteps : (evaluate 4 t (blank {})).state.steps = 3 := by cbv
  have htags : (evaluate 4 t (blank {})).trace.foldl (fun tags e => tags ++ [e.tag]) []
      = ["δ", "β", "β", "β"] := by cbv
  have hexceeded : (evaluate 4 t small).outcome = .error (.overBudget 2) := by cbv
  obtain ⟨-, -, hlistener⟩ := evaluate_traced t (blank {})
  obtain ⟨htold, -⟩ := hlistener (List String) (fun tags e => tags ++ [e.tag]) []
    (.ok (.app (.var "z") (.var "z"))) (evaluate 4 t (blank {})).state
  obtain ⟨m₀, hx⟩ : ∃ m₀, expand t small.restart = (.ok t, m₀) := ⟨_, by cbv⟩
  obtain ⟨us, t₁, m₁, last, -, hlast, hrun, -, hcount⟩ := (evaluate_traced t small).2.1 t m₀ hx 4
  obtain ⟨m₁', hq⟩ : ∃ m₁', expand (.metavar "Q" none) (blank {} : Evaluator Empty).restart
      = (.error (.unbound "Q" none), m₁') := ⟨_, by cbv⟩
  have hlen : us.length = 2 := by
    have hout : last.outcome = .error (.overBudget 2) := by
      rw [← hexceeded, hrun]
      rfl
    have hcount' := hcount 2 (by decide) hout
    omega
  have htrace : (evaluate 4 t small).trace = .expansion t :: us.map .contraction := by
    rw [hrun, Run.after, hlast.trace_eq, List.append_nil]
  have hempty : (evaluate 4 (.metavar "Q" none) (blank {} : Evaluator Empty)).trace = [] := by
    rw [(evaluate_traced _ (blank {})).1 _ _ hq 4]
  exact ⟨t, _, us, by cbv, (htold _).2 ⟨by simp, 4, hv, rfl, htags.symm⟩, hsteps, hexceeded, htrace,
    hlen, hempty⟩

end Evaluator

end NormalOrder
