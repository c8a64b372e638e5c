import NormalOrder.Proofs.Evaluator.BigStep

/-!
# From steps to large steps

Every run of steps is an evaluation in large steps (`RunTo.evaluates`). A step is undone by it:
what the step leaves evaluates as what it began with does, less one contraction
(`StepTo.undone`). The step may be one that evaluation to the head comes upon, or one inside the
stuck term that such an evaluation leaves (`Place`); an application hands the one or the other on
from its function, and a step in its argument is always inside.
-/

namespace NormalOrder.Evaluator

variable {κ : Type} [Shown κ] {d : Depth} {p : String} {a b f t t' u v w : Term κ}
  {m m' m₁ : Evaluator κ} {r : StepResult κ} {run : Run κ}

/-- What a step leaves evaluates to a depth as the run says, less the contraction made. -/
def Finishes (d : Depth) (r : StepResult κ) (m' : Evaluator κ) (run : Run κ) : Prop :=
  match r with
  | .normal v => run = ⟨.ok v, [], m'⟩
  | .contracted u t' => ∃ run', Evaluates d t' m' run' ∧ run = run'.cons (.contraction u)
  | .failed e => run = ⟨.error e, [], m'⟩

/-- A term evaluates as what a step leaves of it does, with the contraction made first. -/
def Undoes (d : Depth) (t : Term κ) (m : Evaluator κ) (r : StepResult κ) (m' : Evaluator κ) :
    Prop :=
  ∀ run, Finishes d r m' run → Evaluates d t m run

/-- Where a step of a term that is no abstraction takes place. -/
inductive Place (t : Term κ) (m : Evaluator κ) (r : StepResult κ) (m' : Evaluator κ) : Prop where
  /-- Evaluation to the head of the term comes upon it. -/
  | head (hu : Undoes .head t m r m') (hr : ∀ v, r = .normal v → v.IsLam)
  /-- Evaluation to the head leaves a stuck term, and it is a step of that. -/
  | inside {h : Term κ} {mh : Evaluator κ} (hh : Evaluates .head t m ⟨.ok h, [], mh⟩)
    (hs : h.Stuck) (hr : ∀ u, r.term? = some u → u.Stuck) (hu : Undoes .full h mh r m')

/-! ## One constructor at a time -/

/-- A step inside a binder is undone there. -/
theorem undoes_lam (h : Undoes .full b m r m') :
    Undoes .full (.lam p b) m (r.map (.lam p)) m' := by
  intro run hrun
  cases r with
  | normal v =>
    obtain rfl := hrun
    exact .lam (h _ rfl)
  | contracted u b' =>
    obtain ⟨run', hb', rfl⟩ := hrun
    cases hb' with
    | lam hb' => exact .lam (h _ ⟨_, hb', rfl⟩)
  | failed e =>
    obtain rfl := hrun
    exact .lam (h _ rfl)

/-- A step inside a binding is undone there. -/
theorem undoes_bind {n : String} (hr : ¬ r.IsNormal) (h : Undoes .full t m r m') :
    Undoes d (.bind n t) m (r.map (.bind n)) m' := by
  intro run hrun
  cases r with
  | normal v => exact absurd trivial hr
  | contracted u t' =>
    obtain ⟨run', ht', rfl⟩ := hrun
    cases ht' with
    | bind ht' => exact .bind (h _ ⟨_, ht', rfl⟩)
  | failed e =>
    obtain rfl := hrun
    exact .bind (h _ rfl)

/-- A contraction is undone where its function is found to be an abstraction. -/
theorem undoes_redex {m'' : Evaluator κ} (hf : Evaluates .head f m ⟨.ok (.lam p b), [], m'⟩)
    (hc : contractStep p b a m' = (r, m'')) : Undoes d (.app f a) m r m'' := by
  intro run hrun
  rw [contractStep] at hc
  split at hc
  · next e m₁ hk =>
    cases hc
    obtain rfl := hrun
    exact .refused hf hk
  · next u m₁ hk =>
    cases hc
    obtain ⟨run', hu, rfl⟩ := hrun
    exact .contracted hf hk hu

/-- A step in the argument of a stuck function is undone there. The function may have been found
normal only after its bindings were replaced by their values. -/
theorem undoes_argument {h : Term κ} {mh m₂ : Evaluator κ}
    (hf : Evaluates .head f m ⟨.ok h, [], mh⟩) (hs : h.Stuck)
    (hh : Evaluates .full h mh ⟨.ok v, [], m₁⟩) (hv : v.Normal) (hl : ¬ v.IsLam)
    (ha : Undoes .full a m₁ r m₂) : Undoes .full (.app f a) m (r.map (.app v)) m₂ := by
  intro run hrun
  cases r with
  | normal a' =>
    obtain rfl := hrun
    exact .app hf hs.not_isLam hh (ha _ rfl)
  | contracted u a' =>
    obtain ⟨run', happ, rfl⟩ := hrun
    cases happ with
    | contracted hv' | refused hv' =>
      cases hv'.eq_of_stuck (hv.stuck hl)
      exact absurd trivial hl
    | failed hv' => cases hv'.eq_of_stuck (hv.stuck hl)
    | app hv' _ hw ha' =>
      cases hv'.eq_of_stuck (hv.stuck hl)
      cases hw.eq_of_normal hv
      exact .app hf hs.not_isLam hh (ha _ ⟨_, ha', rfl⟩)
    | function_failed hv' _ hw =>
      cases hv'.eq_of_stuck (hv.stuck hl)
      cases hw.eq_of_normal hv
  | failed e =>
    obtain rfl := hrun
    exact .app hf hs.not_isLam hh (ha _ rfl)

/-- A step that evaluation to the head of the function comes upon is undone there. -/
theorem undoes_function (hr : ¬ r.IsNormal) (hf : Undoes .head f m r m') :
    Undoes d (.app f a) m (r.map (.app · a)) m' := by
  intro run hrun
  cases r with
  | normal v => exact absurd trivial hr
  | contracted u f' =>
    obtain ⟨run', happ, rfl⟩ := hrun
    cases happ with
    | contracted hf' hc ht => exact .contracted (hf _ ⟨_, hf', rfl⟩) hc ht
    | refused hf' hc => exact .refused (hf _ ⟨_, hf', rfl⟩) hc
    | failed hf' => exact .failed (hf _ ⟨_, hf', rfl⟩)
    | application hf' hv => exact .application (hf _ ⟨_, hf', rfl⟩) hv
    | app hf' hv hw ha => exact .app (hf _ ⟨_, hf', rfl⟩) hv hw ha
    | function_failed hf' hv hw => exact .function_failed (hf _ ⟨_, hf', rfl⟩) hv hw
  | failed e =>
    obtain rfl := hrun
    exact .failed (hf _ rfl)

/-- A step inside the stuck head that the function has is undone there. -/
theorem undoes_inside {h : Term κ} {mh : Evaluator κ} (hn : ¬ r.IsNormal)
    (hf : Evaluates .head f m ⟨.ok h, [], mh⟩) (hs : h.Stuck)
    (hr : ∀ u, r.term? = some u → u.Stuck) (hh : Undoes .full h mh r m') :
    Undoes .full (.app f a) m (r.map (.app · a)) m' := by
  intro run hrun
  cases r with
  | normal v => exact absurd trivial hn
  | contracted u f' =>
    have hf' : f'.Stuck := hr f' rfl
    obtain ⟨run', happ, rfl⟩ := hrun
    cases happ with
    | contracted hv | refused hv =>
      cases hv.eq_of_stuck hf'
      exact hf'.elim
    | failed hv => cases hv.eq_of_stuck hf'
    | app hv _ hw ha =>
      cases hv.eq_of_stuck hf'
      exact .app hf hs.not_isLam (hh _ ⟨_, hw, rfl⟩) ha
    | function_failed hv _ hw =>
      cases hv.eq_of_stuck hf'
      exact .function_failed hf hs.not_isLam (hh _ ⟨_, hw, rfl⟩)
  | failed e =>
    obtain rfl := hrun
    exact .function_failed hf hs.not_isLam (hh _ rfl)

/-! ## Every step -/

/-- A step that evaluation undoes, with the place where it is. -/
structure Undone (t : Term κ) (m : Evaluator κ) (r : StepResult κ) (m' : Evaluator κ) : Prop where
  full : Undoes .full t m r m'
  place : ¬ t.ungroup.IsLam → Place t m r m'

/-- A step of a term that is stuck already is inside it. -/
theorem undone_of_stuck (hs : t.Stuck) (hr : ∀ u, r.term? = some u → u.Stuck)
    (hu : Undoes .full t m r m') : Undone t m r m' :=
  ⟨hu, fun _ => .inside (evaluates_stuck hs m) hs hr hu⟩

/-- A step that evaluation to either depth comes upon is undone, unless it finds the term normal. -/
theorem undone_of_undoes (hu : ∀ d, Undoes d t m r m') (hr : ∀ v, r ≠ .normal v) :
    Undone t m r m' :=
  ⟨hu .full, fun _ => .head (hu .head) fun v hv => absurd hv (hr v)⟩

/-- A step behind parentheses is undone there. -/
theorem Undone.group (h : Undone t m r m') : Undone (.group t) m r m' := by
  refine ⟨fun run hrun => .group (h.full run hrun), fun hl => ?_⟩
  cases h.place hl with
  | head hu hr => exact .head (fun run hrun => .group (hu run hrun)) hr
  | inside hh hs hr hu => exact .inside (.group hh) hs hr hu

/-- A step that stores the value of a binding is undone. The value is the head of the binding, and
if it is no abstraction it is stuck. -/
theorem Undone.store {n : String} (h : Undone t m (.normal v) m') (hv : v.Normal) :
    Undone (.bind n t) m (.normal v) (m'.commit n v) := by
  have hbind : ∀ d, Undoes d (.bind n t) m (.normal v) (m'.commit n v) := by
    rintro d run rfl
    exact .bind (h.full _ rfl)
  refine ⟨hbind .full, fun _ => ?_⟩
  rcases Classical.em v.IsLam with hl | hl
  · refine .head (hbind .head) ?_
    rintro u ⟨⟩
    exact hl
  · refine .inside (hbind .head _ rfl) (hv.stuck hl) ?_ ?_
    · rintro u ⟨⟩
      exact hv.stuck hl
    · rintro run rfl
      exact evaluates_normal hv _

/-- A function that a step finds to be a normal abstraction evaluates to it. -/
theorem Undone.evaluates_lam (h : Undone f m (.normal (.lam p b)) m') (hl : ¬ f.ungroup.IsLam) :
    Evaluates .head f m ⟨.ok (.lam p b), [], m'⟩ := by
  cases h.place hl with
  | head hu => exact hu _ rfl
  | inside _ _ hr => exact (hr _ rfl).elim

/-- A step in the argument of a normal function is undone. -/
theorem Undone.argument {m₂ : Evaluator κ} (hf : Undone f m (.normal v) m₁)
    (hl : ¬ f.ungroup.IsLam) (hv : v.Normal) (hvl : ¬ v.IsLam) (ha : Undone a m₁ r m₂) :
    Undone (.app f a) m (r.map (.app v)) m₂ := by
  cases hf.place hl with
  | head _ hr => exact absurd (hr v rfl) hvl
  | inside hh hs _ hu =>
    refine ⟨undoes_argument hh hs (hu _ rfl) hv hvl ha.full, fun _ =>
      .inside (.application hh hs.not_isLam) hs (fun u hu => ?_)
        (undoes_argument (evaluates_stuck hs _) hs (hu _ rfl) hv hvl ha.full)⟩
    obtain ⟨a', -, rfl⟩ := StepResult.term?_map_eq_some.1 hu
    exact hv.stuck hvl

/-- A step in the function of an application is undone. -/
theorem Undone.function (hf : Undone f m r m') (hl : ¬ f.ungroup.IsLam) (hn : ¬ r.IsNormal) :
    Undone (.app f a) m (r.map (.app · a)) m' := by
  cases hf.place hl with
  | head hu =>
    exact undone_of_undoes (fun d => undoes_function hn hu) fun v => StepResult.map_ne_normal hn
  | inside hh hs hr hu =>
    refine ⟨undoes_inside hn hh hs hr hu, fun _ =>
      .inside (.application hh hs.not_isLam) hs (fun u hu => ?_)
        (undoes_inside hn (evaluates_stuck hs _) hs hr hu)⟩
    obtain ⟨f', hf', rfl⟩ := StepResult.term?_map_eq_some.1 hu
    exact hr f' hf'

/-- Evaluation undoes every step. -/
theorem StepTo.undone (h : StepTo t m r m') : Undone t m r m' := by
  induction h with
  | var x m =>
    refine undone_of_stuck trivial ?_ ?_
    · rintro u ⟨⟩
      trivial
    · rintro run rfl
      exact .var .full x m
  | lam _ ih => exact ⟨undoes_lam ih.full, fun hl => absurd trivial hl⟩
  | group _ ih => exact ih.group
  | store ht ih => exact ih.store (ht.normal rfl)
  | value hr _ ih =>
    exact undone_of_undoes (fun d => undoes_bind hr ih.full) fun v => StepResult.map_ne_normal hr
  | redex hf hc =>
    exact undone_of_undoes (fun d => undoes_redex (evaluates_of_ungroup hf) hc)
      fun v => contractStep_ne_normal hc
  | stored hl _ hc ih =>
    exact undone_of_undoes (fun d => undoes_redex (ih.evaluates_lam hl) hc)
      fun v => contractStep_ne_normal hc
  | argument hl hf hv _ ihf iha => exact ihf.argument hl (hf.normal rfl) hv iha
  | function hl hn _ ih => exact ih.function hl hn
  | metavar n l m =>
    refine undone_of_stuck trivial nofun ?_
    rintro run rfl
    exact .metavar n l m
  | const c m =>
    refine undone_of_stuck trivial nofun ?_
    rintro run rfl
    exact .const c m

/-- Every run of steps is an evaluation. -/
theorem RunTo.evaluates (h : RunTo t m run) : Evaluates .full t m run := by
  induction h with
  | normal h | failed h => exact h.undone.full _ rfl
  | contracted h _ ih => exact h.undone.full _ ⟨_, ih, rfl⟩

end NormalOrder.Evaluator
