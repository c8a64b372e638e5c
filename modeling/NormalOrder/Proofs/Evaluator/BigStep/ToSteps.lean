import NormalOrder.Proofs.Evaluator.BigStep.FromSteps

/-!
# From large steps to steps

Every evaluation in large steps is a run of steps, so the two are the same (`evaluates_iff_runTo`),
in what they come to, in their traces and in the states that they leave, bindings and failures
included. Evaluation to the head of a term is repeated by steps inside the applications around it,
however many these are (`Heads`). Where it replaces parentheses or a binding by what they stand
for, steps keep them and do the same with them (`Repeats`).
-/

namespace NormalOrder

/-- A term applied to arguments, one after the other. -/
def Term.apps {κ : Type} (t : Term κ) (as : List (Term κ)) : Term κ := as.foldl .app t

namespace Evaluator

variable {κ : Type} [Shown κ] {d : Depth} {p : String} {a b f t t' u v w g : Term κ}
  {m m' m₁ : Evaluator κ} {r : StepResult κ} {run : Run κ} {as : List (Term κ)}

/-! ## Terms that make the same steps -/

/-- One term makes every step that another makes, each in its state. -/
def Repeats (f : Term κ) (m : Evaluator κ) (g : Term κ) (m₁ : Evaluator κ) : Prop :=
  ∀ r m', StepTo g m₁ r m' → StepTo f m r m'

/-- A term that makes the steps of another has its runs. -/
theorem Repeats.runTo (h : Repeats f m g m₁) (hg : RunTo g m₁ run) : RunTo f m run := by
  cases hg with
  | normal hs => exact .normal (h _ _ hs)
  | failed hs => exact .failed (h _ _ hs)
  | contracted hs hr => exact .contracted (h _ _ hs) hr

/-- Functions that make the same steps do so in front of an argument. -/
theorem Repeats.app (h : Repeats f m g m₁) (hf : ¬ f.ungroup.IsLam) (hg : ¬ g.ungroup.IsLam) :
    Repeats (.app f a) m (.app g a) m₁ := by
  intro r m' hs
  cases hs with
  | redex hl =>
    rw [hl] at hg
    exact absurd trivial hg
  | stored _ hl hc => exact .stored hf (h _ _ hl) hc
  | argument _ hv hl ha => exact .argument hf (h _ _ hv) hl ha
  | function _ hr hg => exact .function hf hr (h _ _ hg)

/-- Functions that make the same steps do so in front of any number of arguments. -/
theorem Repeats.apps (h : Repeats f m g m₁) (hf : ¬ f.ungroup.IsLam) (hg : ¬ g.ungroup.IsLam) :
    Repeats (f.apps as) m (g.apps as) m₁ := by
  induction as generalizing f g with
  | nil => exact h
  | cons a as ih => exact ih (h.app hf hg) id id

/-- Parentheses change no step, whatever stands behind them. -/
theorem repeats_group (t : Term κ) (as : List (Term κ)) (m : Evaluator κ) :
    Repeats ((Term.group t).apps as) m (t.apps as) m := by
  cases as with
  | nil => exact fun r m' h => .group h
  | cons a as =>
    refine Repeats.apps (f := .app (.group t) a) (g := .app t a) (fun r m' h => ?_) id id
    cases h with
    | redex hl hc => exact .redex hl hc
    | stored hl hf hc => exact .stored hl (.group hf) hc
    | argument hl hf hv ha => exact .argument hl (.group hf) hv ha
    | function hl hr hf => exact .function hl hr (.group hf)

/-- A function that is found to be normal makes the steps of its normal form, whatever it is applied
to. -/
theorem repeats_normal (h : StepTo f m (.normal v) m₁) (hf : ¬ f.ungroup.IsLam)
    (as : List (Term κ)) : Repeats (f.apps as) m (v.apps as) m₁ := by
  have hv : v.Normal := h.normal rfl
  cases as with
  | nil =>
    intro r m' hs
    obtain ⟨rfl, rfl⟩ := hs.eq_of_normal hv
    exact h
  | cons a as =>
    refine Repeats.apps (f := .app f a) (g := .app v a) (fun r m' hs => ?_) id id
    cases hs with
    | redex hl hc =>
      rw [hv.ungroup_eq] at hl
      subst hl
      exact .stored hf h hc
    | stored hl hs hc =>
      obtain ⟨⟨⟩, rfl⟩ := hs.eq_of_normal hv
      exact absurd trivial hl
    | argument _ hs hl ha =>
      obtain ⟨⟨⟩, rfl⟩ := hs.eq_of_normal hv
      exact .argument hf h hl ha
    | function _ hr hs =>
      obtain ⟨rfl, -⟩ := hs.eq_of_normal hv
      exact absurd trivial hr

/-- A contraction in a function is one in its application. -/
theorem stepTo_apps_contracted (hf : ¬ f.ungroup.IsLam) (h : StepTo f m (.contracted u t') m') :
    StepTo (f.apps as) m (.contracted u (t'.apps as)) m' := by
  induction as generalizing f t' with
  | nil => exact h
  | cons a as ih => exact ih id (.function hf id h)

/-- A failure in a function is one in its application. -/
theorem stepTo_apps_failed {e : EvalError} (hf : ¬ f.ungroup.IsLam)
    (h : StepTo f m (.failed e) m') : StepTo (f.apps as) m (.failed e) m' := by
  induction as generalizing f with
  | nil => exact h
  | cons a as ih => exact ih id (.function hf id h)

/-! ## Evaluation at the head of an application -/

/-- What is left to do after a term at the head of an application was evaluated comes to a run. -/
def Continues (r : Run κ) (as : List (Term κ)) (run : Run κ) : Prop :=
  match r.outcome with
  | .ok v => ∃ run', RunTo (v.apps as) r.state run' ∧ run = run'.after r.trace
  | .error _ => run = r

/-- Steps do with the term at the head of an application what its evaluation does. -/
def Heads (t : Term κ) (m : Evaluator κ) (r : Run κ) : Prop :=
  ∀ as run, Continues r as run → RunTo (t.apps as) m run

/-- What came before stands before the run. -/
theorem continues_after {tr : List (TraceEntry κ)} {r : Run κ} (h : Continues (r.after tr) as run) :
    ∃ run', Continues r as run' ∧ run = run'.after tr := by
  rw [Continues] at h
  split at h
  · next v hv =>
    obtain ⟨run', hrun, rfl⟩ := h
    refine ⟨run'.after r.trace, ?_, ?_⟩
    · rw [Continues, show r.outcome = .ok v from hv]
      exact ⟨run', hrun, rfl⟩
    · simp only [Run.after, List.append_assoc]
  · next e he =>
    refine ⟨r, ?_, h⟩
    rw [Continues, show r.outcome = .error e from he]

/-- Steps leave the head of an application alone if evaluation does. -/
theorem heads_self (t : Term κ) (m : Evaluator κ) : Heads t m ⟨.ok t, [], m⟩ := by
  rintro as run ⟨run', hrun, rfl⟩
  exact hrun

/-- Steps do with a binding at the head what they do with its value. -/
theorem RunTo.heads_bind {n : String} (h : RunTo t m run) :
    Heads (.bind n t) m (run.storing n) := by
  induction h with
  | normal h =>
    rintro as run ⟨run', hrun, rfl⟩
    exact (repeats_normal (.store h) id as).runTo hrun
  | failed h =>
    rintro as run rfl
    exact .failed (stepTo_apps_failed id (.value id h))
  | @contracted t u t' m m' r h _ ih =>
    intro as run hrun
    have hafter : Continues ((r.storing n).after [.contraction u]) as run := hrun
    obtain ⟨run', hrun', rfl⟩ := continues_after hafter
    exact .contracted (stepTo_apps_contracted id (.value id h)) (ih as run' hrun')

/-! ## Runs inside a term -/

/-- A run of the value is one of the binding. -/
theorem RunTo.bind {n : String} (h : RunTo t m run) : RunTo (.bind n t) m (run.storing n) := by
  induction h with
  | normal h => exact .normal (.store h)
  | failed h => exact .failed (.value id h)
  | contracted h _ ih => exact .contracted (.value id h) ih

/-- A run below a binder is one of the abstraction. -/
theorem RunTo.lam (h : RunTo b m run) : RunTo (.lam p b) m (run.map (.lam p)) := by
  induction h with
  | normal h => exact .normal (.lam h)
  | failed h => exact .failed (.lam h)
  | contracted h _ ih => exact .contracted (.lam h) ih

/-- A step of a stuck term leaves a stuck term. -/
theorem StepTo.stuck (h : StepTo t m r m') (ht : t.Stuck) (hu : r.term? = some u) : u.Stuck := by
  induction h generalizing u with
  | var =>
    cases hu
    trivial
  | lam | group | store | value => exact ht.elim
  | @redex p f b a m m' r hf =>
    have hl : ¬ f.ungroup.IsLam := Term.Stuck.not_isLam_ungroup (t := f) ht
    rw [hf] at hl
    exact absurd trivial hl
  | stored _ _ _ ih => exact (ih ht rfl).elim
  | argument _ _ _ _ ihf _ =>
    obtain ⟨a', -, rfl⟩ := StepResult.term?_map_eq_some.1 hu
    have hv : Term.Stuck _ := ihf ht rfl
    exact hv
  | function _ _ _ ih =>
    obtain ⟨f', hf', rfl⟩ := StepResult.term?_map_eq_some.1 hu
    have hf : f'.Stuck := ih ht hf'
    exact hf
  | metavar | const => cases hu

/-- A run of the argument of a normal function is one of the application. -/
theorem RunTo.argument (h : RunTo a m run) (hv : v.Normal) (hl : ¬ v.IsLam) :
    RunTo (.app v a) m (run.map (.app v)) := by
  have hl' : ¬ v.ungroup.IsLam := by rwa [hv.ungroup_eq]
  induction h with
  | normal h => exact .normal (.argument hl' (stepTo_normal hv _) hl h)
  | failed h => exact .failed (.argument hl' (stepTo_normal hv _) hl h)
  | contracted h _ ih => exact .contracted (.argument hl' (stepTo_normal hv _) hl h) ih

/-- Once a stuck function has run to its normal form, the argument runs. -/
theorem RunTo.app {r r' : Run κ} (h : RunTo v m r) (hs : v.Stuck) (hw : r.outcome = .ok w)
    (ha : RunTo a r.state r') : RunTo (.app v a) m ((r'.map (.app w)).after r.trace) := by
  induction h with
  | normal h =>
    cases hw
    have hl : ¬ w.IsLam := (h.stuck hs rfl).not_isLam
    exact (repeats_normal h hs.not_isLam_ungroup [a]).runTo (ha.argument (h.normal rfl) hl)
  | failed => cases hw
  | contracted h _ ih =>
    exact .contracted (.function hs.not_isLam_ungroup id h) (ih (h.stuck hs rfl) hw ha)

/-- Where a stuck function fails its application fails. -/
theorem RunTo.app_failed {r : Run κ} {e : EvalError} (h : RunTo v m r) (hs : v.Stuck)
    (he : r.outcome = .error e) : RunTo (.app v a) m r := by
  induction h with
  | normal => cases he
  | failed h => exact .failed (.function hs.not_isLam_ungroup id h)
  | contracted h _ ih =>
    exact .contracted (.function hs.not_isLam_ungroup id h) (ih (h.stuck hs rfl) he)

/-! ## Every evaluation -/

/-- What steps do with a term that is evaluated to a depth. -/
def Repeated : Depth → Term κ → Evaluator κ → Run κ → Prop
  | .head, t, m, r => Heads t m r ∧ ∀ v, r.outcome = .ok v → v.IsLam ∨ v.Stuck
  | .full, t, m, r => RunTo t m r

/-- A redex whose function is evaluated to an abstraction runs as its contractum does. -/
theorem Heads.contracted {m'' : Evaluator κ} {tr : List (TraceEntry κ)}
    (hf : Heads f m ⟨.ok (.lam p b), tr, m'⟩) (hc : contract p b a m' = (.ok t, m''))
    (ht : RunTo (t.apps as) m'' run) :
    RunTo ((Term.app f a).apps as) m ((run.cons (.contraction t)).after tr) := by
  have hstep : StepTo (.app (.lam p b) a) m' (.contracted t t) m'' :=
    .redex rfl (by rw [contractStep, hc])
  have hrun : RunTo ((Term.app (.lam p b) a).apps as) m' (run.cons (.contraction t)) :=
    .contracted (stepTo_apps_contracted id hstep) ht
  exact hf (a :: as) _ ⟨_, hrun, rfl⟩

/-- A redex whose function is evaluated to an abstraction fails as its contraction does. -/
theorem Heads.refused {m'' : Evaluator κ} {tr : List (TraceEntry κ)} {e : EvalError}
    (hf : Heads f m ⟨.ok (.lam p b), tr, m'⟩) (hc : contract p b a m' = (.error e, m'')) :
    RunTo ((Term.app f a).apps as) m ⟨.error e, tr, m''⟩ := by
  have hstep : StepTo (.app (.lam p b) a) m' (.failed e) m'' :=
    .redex rfl (by rw [contractStep, hc])
  have hrun : RunTo ((Term.app (.lam p b) a).apps as) m' ⟨.error e, [], m''⟩ :=
    .failed (stepTo_apps_failed id hstep)
  refine hf (a :: as) _ ⟨_, hrun, ?_⟩
  rw [Run.after, List.append_nil]

/-- Steps repeat an evaluation to the head that finds nothing to do. -/
theorem repeated_self (h : t.IsLam ∨ t.Stuck) (m : Evaluator κ) :
    Repeated .head t m ⟨.ok t, [], m⟩ := by
  refine ⟨heads_self t m, ?_⟩
  rintro v ⟨⟩
  exact h

/-- Steps repeat an evaluation that fails, to either depth, if they fail whatever the term is applied
to. -/
theorem repeated_of_error {tr : List (TraceEntry κ)} {e : EvalError} (d : Depth)
    (h : ∀ as, RunTo (t.apps as) m ⟨.error e, tr, m'⟩) : Repeated d t m ⟨.error e, tr, m'⟩ := by
  cases d with
  | head =>
    refine ⟨?_, nofun⟩
    rintro as run rfl
    exact h as
  | full => exact h []

/-- Steps repeat every evaluation. -/
theorem Evaluates.repeated (h : Evaluates d t m run) : Repeated d t m run := by
  induction h with
  | var d x m =>
    cases d with
    | head => exact repeated_self (t := .var x) (.inr trivial) m
    | full => exact .normal (.var x m)
  | abstraction p b m => exact repeated_self (t := .lam p b) (.inl trivial) m
  | lam _ ih => exact ih.lam
  | @group d t m r _ ih =>
    cases d with
    | head =>
      obtain ⟨ht, hv⟩ := ih
      exact ⟨fun as run hrun => (repeats_group t as m).runTo (ht as run hrun), hv⟩
    | full => exact (repeats_group t [] m).runTo ih
  | @bind d n t m r _ ih =>
    cases d with
    | head =>
      refine ⟨ih.heads_bind, fun v hv => ?_⟩
      have hn : v.Normal := ih.normal_value hv
      exact (Classical.em v.IsLam).imp_right hn.stuck
    | full => exact ih.bind
  | @contracted d p f b a t m m' m'' tr r _ hc _ ihf iht =>
    obtain ⟨hf, -⟩ := ihf
    cases d with
    | head =>
      obtain ⟨ht, hv⟩ := iht
      refine ⟨fun as run hrun => ?_, hv⟩
      obtain ⟨run₁, hrun₁, rfl⟩ := continues_after hrun
      have hafter : Continues (r.after [.contraction t]) as run₁ := hrun₁
      obtain ⟨run₂, hrun₂, rfl⟩ := continues_after hafter
      exact hf.contracted hc (ht as run₂ hrun₂)
    | full =>
      have ht : RunTo (t.apps []) m'' r := iht
      exact hf.contracted hc ht
  | @refused d p f b a m m' m'' tr e _ hc ihf =>
    obtain ⟨hf, -⟩ := ihf
    exact repeated_of_error d fun as => hf.refused hc
  | @failed d f a m m' tr e _ ihf =>
    obtain ⟨hf, -⟩ := ihf
    exact repeated_of_error d fun as => hf (a :: as) _ rfl
  | @application f v a m m' tr _ hl ihf =>
    obtain ⟨hf, hv⟩ := ihf
    refine ⟨fun as run hrun => hf (a :: as) run hrun, ?_⟩
    rintro u ⟨⟩
    exact .inr ((hv v rfl).resolve_left hl)
  | @app f v w a m m' m'' tr tr' r _ hl _ _ ihf ihw iha =>
    obtain ⟨hf, hv⟩ := ihf
    have hs : v.Stuck := (hv v rfl).resolve_left hl
    exact hf [a] _ ⟨_, ihw.app hs rfl iha, rfl⟩
  | @function_failed f v a m m' m'' tr tr' e _ hl _ ihf ihw =>
    obtain ⟨hf, hv⟩ := ihf
    have hs : v.Stuck := (hv v rfl).resolve_left hl
    exact hf [a] _ ⟨_, ihw.app_failed hs rfl, rfl⟩
  | reference n l m => exact repeated_self (t := .metavar n l) (.inr trivial) m
  | metavar n l m => exact .failed (.metavar n l m)
  | constant c m => exact repeated_self (t := .const c) (.inr trivial) m
  | const c m => exact .failed (.const c m)

/-- The evaluations of a term are its runs. -/
theorem evaluates_iff_runTo : Evaluates .full t m run ↔ RunTo t m run :=
  ⟨Evaluates.repeated, RunTo.evaluates⟩

/-- The evaluations of a term are its reductions with bounds that suffice. -/
theorem evaluates_iff_reduce :
    Evaluates .full t m run ↔
      run.outcome ≠ .error .unfinished ∧ ∃ bound, reduce bound t m = run :=
  evaluates_iff_runTo.trans runTo_iff_reduce

end Evaluator

end NormalOrder
