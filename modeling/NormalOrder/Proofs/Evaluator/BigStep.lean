import NormalOrder.Proofs.Evaluator.History

/-!
# Reduction in large steps

Reduction can be told without looking for a redex from the root again after every contraction. To
reduce an application, its function is first evaluated as far as is needed to see whether it is an
abstraction, and no further (`Depth.head`): if it is, the redex is contracted and evaluation goes
on with the contractum; if it is not, function and argument are reduced one after the other
(`Depth.full`). `Evaluates` has one rule for each way this can go.

What evaluation to the head leaves is an abstraction or `Stuck`, and of a stuck term it has nothing
more to evaluate (`Evaluates.eq_of_stuck`), as full evaluation has nothing to do with a normal one
(`Evaluates.eq_of_normal`).
-/

namespace NormalOrder

variable {κ : Type}

namespace Run

/-- A function applied to the value of a run. -/
def map (f : Term κ → Term κ) (r : Run κ) : Run κ := { r with outcome := r.outcome.map f }

/-- A run with the trace of what came before it. -/
def after (trace : List (TraceEntry κ)) (r : Run κ) : Run κ :=
  { r with trace := trace ++ r.trace }

/-- A run whose value is stored under a name. -/
def storing (n : String) (r : Run κ) : Run κ :=
  { r with
    state := match r.outcome with
      | .ok v => r.state.commit n v
      | .error _ => r.state }

end Run

namespace Term

/-- A term that no contraction makes an abstraction, whatever it is applied to: what stands at its
head is no abstraction, and nothing that evaluation to the head replaces. -/
def Stuck : Term κ → Prop
  | var _ | metavar _ _ | const _ => True
  | app f _ => f.Stuck
  | lam _ _ | group _ | bind _ _ => False

/-- A stuck term is no abstraction. -/
theorem Stuck.not_isLam {t : Term κ} (h : t.Stuck) : ¬ t.IsLam := by
  cases t with
  | var | app | group | bind | metavar | const => exact id
  | lam => exact h.elim

/-- There are no parentheses around a stuck term, and no abstraction inside them. -/
theorem Stuck.not_isLam_ungroup {t : Term κ} (h : t.Stuck) : ¬ t.ungroup.IsLam := by
  cases t with
  | var | app | metavar | const => exact id
  | lam | group | bind => exact h.elim

/-- A normal term is an abstraction or stuck. -/
theorem Normal.stuck {t : Term κ} (h : t.Normal) (hl : ¬ t.IsLam) : t.Stuck := by
  induction t with
  | var => trivial
  | lam => exact absurd trivial hl
  | app f a ihf _ => exact ihf h.2.1 h.1
  | group | bind | metavar | const => exact h.elim

end Term

namespace Evaluator

/-- How far a term is evaluated. -/
inductive Depth where
  /-- Until it is seen whether it is an abstraction. -/
  | head
  /-- Until no redex is left in it. -/
  | full

variable [Shown κ]

/-- Evaluation of a term to a depth. -/
inductive Evaluates : Depth → Term κ → Evaluator κ → Run κ → Prop where
  | var (d : Depth) (x : String) (m : Evaluator κ) :
    Evaluates d (.var x) m ⟨.ok (.var x), [], m⟩
  | abstraction (p : String) (b : Term κ) (m : Evaluator κ) :
    Evaluates .head (.lam p b) m ⟨.ok (.lam p b), [], m⟩
  | lam {p : String} {b : Term κ} {m : Evaluator κ} {r : Run κ} (hb : Evaluates .full b m r) :
    Evaluates .full (.lam p b) m (r.map (.lam p))
  | group {d : Depth} {t : Term κ} {m : Evaluator κ} {r : Run κ} (ht : Evaluates d t m r) :
    Evaluates d (.group t) m r
  | bind {d : Depth} {n : String} {t : Term κ} {m : Evaluator κ} {r : Run κ}
      (ht : Evaluates .full t m r) :
    Evaluates d (.bind n t) m (r.storing n)
  | contracted {d : Depth} {p : String} {f b a t : Term κ} {m m' m'' : Evaluator κ}
      {tr : List (TraceEntry κ)} {r : Run κ} (hf : Evaluates .head f m ⟨.ok (.lam p b), tr, m'⟩)
      (hc : contract p b a m' = (.ok t, m'')) (ht : Evaluates d t m'' r) :
    Evaluates d (.app f a) m ((r.cons (.contraction t)).after tr)
  | refused {d : Depth} {p : String} {f b a : Term κ} {m m' m'' : Evaluator κ}
      {tr : List (TraceEntry κ)} {e : EvalError}
      (hf : Evaluates .head f m ⟨.ok (.lam p b), tr, m'⟩)
      (hc : contract p b a m' = (.error e, m'')) :
    Evaluates d (.app f a) m ⟨.error e, tr, m''⟩
  | failed {d : Depth} {f a : Term κ} {m m' : Evaluator κ} {tr : List (TraceEntry κ)}
      {e : EvalError} (hf : Evaluates .head f m ⟨.error e, tr, m'⟩) :
    Evaluates d (.app f a) m ⟨.error e, tr, m'⟩
  | application {f v a : Term κ} {m m' : Evaluator κ} {tr : List (TraceEntry κ)}
      (hf : Evaluates .head f m ⟨.ok v, tr, m'⟩) (hv : ¬ v.IsLam) :
    Evaluates .head (.app f a) m ⟨.ok (.app v a), tr, m'⟩
  | app {f v w a : Term κ} {m m' m'' : Evaluator κ} {tr tr' : List (TraceEntry κ)} {r : Run κ}
      (hf : Evaluates .head f m ⟨.ok v, tr, m'⟩) (hv : ¬ v.IsLam)
      (hw : Evaluates .full v m' ⟨.ok w, tr', m''⟩) (ha : Evaluates .full a m'' r) :
    Evaluates .full (.app f a) m (((r.map (.app w)).after tr').after tr)
  | function_failed {f v a : Term κ} {m m' m'' : Evaluator κ} {tr tr' : List (TraceEntry κ)}
      {e : EvalError} (hf : Evaluates .head f m ⟨.ok v, tr, m'⟩) (hv : ¬ v.IsLam)
      (hw : Evaluates .full v m' ⟨.error e, tr', m''⟩) :
    Evaluates .full (.app f a) m ⟨.error e, tr ++ tr', m''⟩
  | reference (n : String) (l : Option Location) (m : Evaluator κ) :
    Evaluates .head (.metavar n l) m ⟨.ok (.metavar n l), [], m⟩
  | metavar (n : String) (l : Option Location) (m : Evaluator κ) :
    Evaluates .full (.metavar n l) m ⟨.error (.violation (.unexpanded n .reduction)), [], m⟩
  | constant (c : κ) (m : Evaluator κ) :
    Evaluates .head (.const c) m ⟨.ok (.const c), [], m⟩
  | const (c : κ) (m : Evaluator κ) :
    Evaluates .full (.const c) m
      ⟨.error (.violation (.notExpression (Shown.shown c) .reduce)), [], m⟩

variable {d : Depth} {p : String} {a b f t t' u v w : Term κ} {m m' m₁ : Evaluator κ}
  {r : StepResult κ} {run : Run κ}

/-! ## Terms that evaluation leaves alone -/

/-- Parentheses around an abstraction do not hide it. -/
theorem evaluates_of_ungroup (h : f.ungroup = .lam p b) :
    Evaluates .head f m ⟨.ok (.lam p b), [], m⟩ := by
  induction f with
  | lam q c =>
    cases h
    exact .abstraction p b m
  | group f ih => exact .group (ih h)
  | var | app | bind | metavar | const => cases h

/-- The head of a stuck term has nothing to evaluate. -/
theorem evaluates_stuck (h : v.Stuck) (m : Evaluator κ) :
    Evaluates .head v m ⟨.ok v, [], m⟩ := by
  induction v with
  | var x => exact .var .head x m
  | app f a ihf _ => exact .application (ihf h) (Term.Stuck.not_isLam h)
  | metavar n l => exact .reference n l m
  | const c => exact .constant c m
  | lam | group | bind => exact h.elim

/-- The head of a stuck term evaluates to nothing else. -/
theorem Evaluates.eq_of_stuck (h : Evaluates .head v m run) (hv : v.Stuck) :
    run = ⟨.ok v, [], m⟩ := by
  induction v generalizing run with
  | var | metavar | const =>
    cases h
    rfl
  | app f a ihf _ =>
    cases h with
    | contracted hf | refused hf =>
      cases ihf hf hv
      exact hv.elim
    | failed hf => cases ihf hf hv
    | application hf =>
      cases ihf hf hv
      rfl
  | lam | group | bind => exact hv.elim

/-- A normal term evaluates to itself. -/
theorem evaluates_normal (h : v.Normal) (m : Evaluator κ) :
    Evaluates .full v m ⟨.ok v, [], m⟩ := by
  induction v with
  | var x => exact .var .full x m
  | lam p b ih => exact .lam (ih h)
  | app f a ihf iha =>
    obtain ⟨hl, hf, ha⟩ := h
    exact .app (evaluates_stuck (hf.stuck hl) m) hl (ihf hf) (iha ha)
  | group | bind | metavar | const => exact h.elim

/-- A normal term evaluates to nothing else. -/
theorem Evaluates.eq_of_normal (h : Evaluates .full v m run) (hv : v.Normal) :
    run = ⟨.ok v, [], m⟩ := by
  induction v generalizing m run with
  | var =>
    cases h
    rfl
  | lam p b ih =>
    cases h with
    | lam hb =>
      rw [ih hb hv]
      rfl
  | app f a ihf iha =>
    obtain ⟨hl, hf, ha⟩ := hv
    cases h with
    | contracted hf' | refused hf' =>
      cases hf'.eq_of_stuck (hf.stuck hl)
      exact absurd trivial hl
    | failed hf' => cases hf'.eq_of_stuck (hf.stuck hl)
    | app hf' _ hw ha' =>
      cases hf'.eq_of_stuck (hf.stuck hl)
      cases ihf hw hf
      rw [iha ha' ha]
      rfl
    | function_failed hf' _ hw =>
      cases hf'.eq_of_stuck (hf.stuck hl)
      cases ihf hw hf
  | group | bind | metavar | const => exact hv.elim

end Evaluator

end NormalOrder
