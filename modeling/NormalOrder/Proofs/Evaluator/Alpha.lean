import Mathlib
import NormalOrder.Proofs.Evaluator.Leftmost
import NormalOrder.Proofs.Evaluator.Outcome
import NormalOrder.Proofs.Term.Alpha

/-!
# Evaluation and α-equivalence

The evaluations of two α-equivalent expressions go in lock step and come to α-equivalent values, or
both to none (`evaluate_alpha`). They may draw different names and rename in different places; what
they have in common is the nameless form, and each step preserves that (`StepTo.alike`, with one
lemma about `Matched` for each way that a step goes).

Expansion is the exception. It puts values in place of metavariables as they stand, and a binder
that encloses the metavariable binds the free variables of the value from then on. So the two
expressions must agree in what they do to the values (`Term.CapturedAlike`): at references that
correspond to each other a free variable of the value is bound by binders at the same distance, or
by none. They do if the values are closed, as those of the prelude are (`capturedAlike_of_closed`);
if they do not, the values may differ (`evaluate_captured`).
-/

namespace NormalOrder

variable {κ : Type}

/-- The error without the place where the metavariable that it is about was written. -/
def EvalError.unlocated : EvalError → EvalError
  | unbound n _ => unbound n none
  | e => e

/-- The names of the metavariables, from left to right. -/
def Nameless.references : Nameless κ → List String
  | bound _ | free _ | const _ => []
  | lam b => b.references
  | app f a => f.references ++ a.references
  | bind _ t => t.references
  | metavar n => [n]

namespace Term

/-! ## References -/

/-- The metavariables of a term inside binders of the names `binders`, from left to right, each with
the names of the binders around it, innermost first. -/
def references (binders : List String) : Term κ → List (String × List String)
  | var _ | const _ => []
  | lam p b => b.references (p :: binders)
  | app f a => f.references binders ++ a.references binders
  | group t => t.references binders
  | bind _ t => t.references binders
  | metavar n _ => [(n, binders)]

/-- Two lists of references correspond, and where a value is spliced in at both of two references
that correspond, each of its free variables is bound there at the same distance, or not at all. -/
def CapturedAlike (env : OrderedMap String (Term κ))
    (refs refs' : List (String × List String)) : Prop :=
  ∀ r ∈ refs.zip refs', ∀ v x, env.get? r.1.1 = some v → v.FreeIn x →
    placeOf x r.1.2 = placeOf x r.2.2

/-- A term with the values of `env` put in place of its metavariables, as they stand. -/
def splice (env : OrderedMap String (Term κ)) : Term κ → Term κ
  | var x => var x
  | lam p b => lam p (b.splice env)
  | app f a => app (f.splice env) (a.splice env)
  | group t => group (t.splice env)
  | bind n t => bind n (t.splice env)
  | metavar n l => (env.get? n).getD (metavar n l)
  | const c => const c

variable {s t : Term κ} {ρ ρ' : String → Nameless κ} {env : OrderedMap String (Term κ)}

/-- Where variables stand for variables the metavariables are those of the reading. -/
theorem map_fst_references (t : Term κ) (binders : List String) (hρ : ∀ x, (ρ x).IsVar) :
    (t.references binders).map Prod.fst = (t.readIn ρ).references := by
  induction t generalizing binders ρ with
  | var x =>
    have hx := hρ x
    rw [readIn]
    cases hu : ρ x with
    | bound | free => rfl
    | lam | app | bind | metavar | const =>
      rw [hu] at hx
      exact hx.elim
  | lam p b ih => exact ih (p :: binders) (isVar_underBinder hρ)
  | app f a ihf iha =>
    rw [references, List.map_append, ihf binders hρ, iha binders hρ, readIn, Nameless.references]
  | group t ih | bind n t ih => exact ih binders hρ
  | metavar | const => rfl

/-- The parentheses around a term do not matter to its references. -/
theorem references_ungroup (t : Term κ) (binders : List String) :
    t.ungroup.references binders = t.references binders := by
  induction t with
  | group t ih => exact ih
  | var | lam | app | bind | metavar | const => rfl

/-- The parentheses around a term are not read after its metavariables are replaced either. -/
theorem readIn_splice_ungroup (t : Term κ) (ρ : String → Nameless κ) :
    (t.ungroup.splice env).readIn ρ = (t.splice env).readIn ρ := by
  induction t with
  | group t ih => exact ih
  | var | lam | app | bind | metavar | const => rfl

/-- References of two applications that correspond are references of the functions that correspond
and references of the arguments that correspond. -/
theorem capturedAlike_append {refs₁ refs₁' refs₂ refs₂' : List (String × List String)}
    (hlen : refs₁.length = refs₁'.length) :
    CapturedAlike env (refs₁ ++ refs₂) (refs₁' ++ refs₂') ↔
      CapturedAlike env refs₁ refs₁' ∧ CapturedAlike env refs₂ refs₂' := by
  rw [CapturedAlike, List.zip_append hlen]
  exact List.forall_mem_append

/-- Closed values have no free variables to be bound differently. -/
theorem capturedAlike_of_closed (henv : ∀ n v, env.get? n = some v → ∀ x, ¬ v.FreeIn x)
    (refs refs' : List (String × List String)) : CapturedAlike env refs refs' :=
  fun r _ v x hv hx => absurd hx (henv r.1.1 v hv x)

/-- Terms that read alike do so after their metavariables are replaced, if the free variables of the
values are captured alike. -/
theorem readIn_splice {bs cs : List String} (h : s.readIn (scope bs) = t.readIn (scope cs))
    (hcap : CapturedAlike env (s.references bs) (t.references cs)) :
    (s.splice env).readIn (scope bs) = (t.splice env).readIn (scope cs) := by
  rw [← readIn_splice_ungroup t]
  rw [← references_ungroup t] at hcap
  induction s generalizing t bs cs with
  | group s ih => exact ih h hcap
  | var x =>
    obtain ⟨y, ht, hy⟩ := ungroup_eq_var h.symm (isVar_scope bs x)
    rw [ht]
    exact hy.symm
  | lam p b ih =>
    obtain ⟨q, c, ht, hc⟩ := ungroup_eq_lam (isVar_scope cs) h.symm
    rw [underBinder_scope, underBinder_scope] at hc
    rw [ht, references, references, ← references_ungroup c] at hcap
    have hb := ih hc.symm hcap
    rw [readIn_splice_ungroup] at hb
    rw [ht, splice, splice, readIn, readIn, underBinder_scope, underBinder_scope, hb]
  | app f a ihf iha =>
    obtain ⟨g, c, ht, hg, hc⟩ := ungroup_eq_app (isVar_scope cs) h.symm
    have hlen : (f.references bs).length = (g.references cs).length := by
      rw [← List.length_map Prod.fst, map_fst_references f bs (isVar_scope bs), ← hg,
        ← map_fst_references g cs (isVar_scope cs), List.length_map]
    rw [ht] at hcap
    obtain ⟨hcf, hca⟩ := (capturedAlike_append hlen).1 hcap
    rw [← references_ungroup g] at hcf
    rw [← references_ungroup c] at hca
    have hf := ihf hg.symm hcf
    have ha := iha hc.symm hca
    rw [readIn_splice_ungroup] at hf ha
    rw [ht, splice, splice, readIn, readIn, hf, ha]
  | bind n s ih =>
    obtain ⟨u, ht, hu⟩ := ungroup_eq_bind (isVar_scope cs) h.symm
    rw [ht, references, references, ← references_ungroup u] at hcap
    have hs := ih hu.symm hcap
    rw [readIn_splice_ungroup] at hs
    rw [ht, splice, splice, readIn, readIn, hs]
  | metavar n l =>
    obtain ⟨l', ht⟩ := ungroup_eq_metavar (isVar_scope cs) h.symm
    rw [ht] at hcap ⊢
    rw [splice, splice]
    cases hv : env.get? n with
    | none => rfl
    | some v =>
      refine readIn_congr fun x hx => ?_
      have hplace := hcap ((n, bs), (n, cs)) (.head _) v x hv hx
      rw [scope, scope, hplace]
  | const c =>
    rw [ungroup_eq_const (isVar_scope cs) h.symm]
    rfl

end Term

namespace StepResult

/-- Two steps come to the same under `ρ` and `ρ'`: both find no redex or both contract one, and the
whole terms read alike, or both fail with the same error. -/
inductive Alike (ρ ρ' : String → Nameless κ) : StepResult κ → StepResult κ → Prop where
  | normal {v w : Term κ} (h : v.readIn ρ = w.readIn ρ') : Alike ρ ρ' (normal v) (normal w)
  | contracted {c d t u : Term κ} (h : t.readIn ρ = u.readIn ρ') :
    Alike ρ ρ' (contracted c t) (contracted d u)
  | failed (e : EvalError) : Alike ρ ρ' (failed e) (failed e)

variable {ρ ρ' σ σ' : String → Nameless κ} {r r' : StepResult κ}

/-- Steps that come to the same do so below constructors under which terms still read alike. -/
theorem Alike.map {f g : Term κ → Term κ} (h : Alike ρ ρ' r r')
    (hfg : ∀ t u, t.readIn ρ = u.readIn ρ' → (f t).readIn σ = (g u).readIn σ') :
    Alike σ σ' (r.map f) (r'.map g) := by
  cases h with
  | normal h => exact .normal (hfg _ _ h)
  | contracted h => exact .contracted (hfg _ _ h)
  | failed e => exact .failed e

/-- Of two steps that come to the same one finds no redex only if the other finds none. -/
theorem Alike.isNormal (h : Alike ρ ρ' r r') (hr : ¬ r.IsNormal) : ¬ r'.IsNormal := by
  cases h with
  | normal => exact absurd trivial hr
  | contracted | failed => exact id

end StepResult

namespace Evaluator

variable {p q : String} {b c a d s t t' u f : Term κ} {m m' m₁ m₁' : Evaluator κ}
  {r : StepResult κ} {ρ ρ' : String → Nameless κ}

/-! ## Two evaluations in lock step -/

/-- An expanded term that the names in use cover, in a state that never runs out of names. -/
structure Prepared (t : Term κ) (m : Evaluator κ) : Prop where
  expanded : t.Expanded
  covered : m.names.Covers t
  subscripts : m.names.subscripts = true

/-- `m'` has the budget of `m` and has counted as many contractions. -/
structure InStep (m m' : Evaluator κ) : Prop where
  budget : m'.budget = m.budget
  steps : m'.steps = m.steps

namespace Prepared

/-- The body of an abstraction is prepared if the abstraction is. -/
theorem body (h : Prepared (.lam p b) m) : Prepared b m :=
  ⟨⟨h.expanded.metavariable, h.expanded.constant⟩, (NameSupply.covers_lam.1 h.covered).2,
    h.subscripts⟩

/-- The function of an application is prepared if the application is. -/
theorem function (h : Prepared (.app f a) m) : Prepared f m :=
  ⟨⟨h.expanded.metavariable.1, h.expanded.constant.1⟩, (NameSupply.covers_app.1 h.covered).1,
    h.subscripts⟩

/-- The argument of an application is prepared if the application is. -/
theorem argument (h : Prepared (.app f a) m) : Prepared a m :=
  ⟨⟨h.expanded.metavariable.2, h.expanded.constant.2⟩, (NameSupply.covers_app.1 h.covered).2,
    h.subscripts⟩

/-- What stands in parentheses is prepared if the whole is. -/
theorem inner (h : Prepared (.group t) m) : Prepared t m :=
  ⟨⟨h.expanded.metavariable.2, h.expanded.constant.2⟩, h.covered, h.subscripts⟩

/-- The value of a binding is prepared if the binding is. -/
theorem value {n : String} (h : Prepared (.bind n t) m) : Prepared t m :=
  ⟨⟨h.expanded.metavariable.2, h.expanded.constant.2⟩, h.covered, h.subscripts⟩

/-- A term that is prepared is prepared without the parentheses around it. -/
theorem of_ungroup (hu : t.ungroup = u) (h : Prepared t m) : Prepared u m := by
  subst hu
  have hm := (kept_lacks _).ungroup h.expanded.metavariable
  have hc := (kept_lacks _).ungroup h.expanded.constant
  exact ⟨⟨hm, hc⟩, covers_of_ungroup rfl h.covered, h.subscripts⟩

/-- A term that is prepared in a state is prepared after more names are in use. -/
theorem grows (h : Prepared t m) (hg : m.names.Grows m'.names) : Prepared t m' :=
  ⟨h.expanded, hg.covers h.covered, hg.subscripts.trans h.subscripts⟩

end Prepared

/-- Two contractions whose parts read alike come to the same. -/
theorem contractStep_alike (h : contractStep p b a m = (r, m₁))
    (hf : Prepared (.lam p b) m) (ha : Prepared a m)
    (hf' : Prepared (.lam q c) m') (ha' : Prepared d m') (hin : InStep m m')
    (hread : b.readIn (Term.underBinder p ρ) = c.readIn (Term.underBinder q ρ'))
    (hreada : a.readIn ρ = d.readIn ρ') :
    ∃ r' m₁', contractStep q c d m' = (r', m₁') ∧ r.Alike ρ ρ' r' := by
  rcases contractStep_cases h with ⟨e, rfl, hc⟩ | ⟨t, rfl, hk⟩
  · have hno := refused_of_contract hc hf.body.expanded.metavariable hf.subscripts
    rw [← hin.budget, ← hin.steps] at hno
    refine ⟨_, { m' with steps := m'.steps + 1 }, ?_, .failed e⟩
    rw [contractStep, contract, hno]
  · have hyes := hk.allowed
    rw [← hin.budget, ← hin.steps] at hyes
    obtain ⟨u, names', hs⟩ :=
      Term.exists_subst q d hf'.body.expanded.metavariable hf'.subscripts
    have hc : contract q c d m' = (.ok u, { m' with steps := m'.steps + 1, names := names' }) := by
      rw [contract, hyes]
      simp only [hs]
    have hk' := contracts_of_contract hc
    refine ⟨_, _, by rw [contractStep, hc], .contracted ?_⟩
    rw [hk.readIn hf.covered ha.covered, hk'.readIn hf'.covered ha'.covered, hread, hreada]

variable [Shown κ]

/-- A term makes the step that it makes without the parentheses around it. -/
theorem StepTo.of_ungroup (hu : t.ungroup = u) (h : StepTo u m r m') : StepTo t m r m' := by
  induction t with
  | group t ih => exact .group (ih hu)
  | var | lam | app | bind | metavar | const =>
    subst hu
    exact h

/-- What a step leaves of a prepared term is prepared. -/
theorem StepTo.prepared (h : StepTo t m r m') (ht : Prepared t m) (hu : r.term? = some u) :
    Prepared u m' := by
  obtain ⟨hg, hcov⟩ := h.covers ht.covered hu
  exact ⟨h.expanded ht.expanded hu, hcov, hg.subscripts.trans ht.subscripts⟩

/-- Steps that both find no redex leave states in step. -/
theorem InStep.after_normal {v w : Term κ} (hin : InStep m m') (h : StepTo s m (.normal v) m₁)
    (h' : StepTo t m' (.normal w) m₁') : InStep m₁ m₁' :=
  ⟨by rw [h.budget_eq, h'.budget_eq, hin.budget],
    by rw [h.steps_of_normal rfl, h'.steps_of_normal rfl, hin.steps]⟩

/-- Prepared terms that read like `s`, in states in step with `m`, make steps that come to the same
as `r`. -/
def Matched (s : Term κ) (m : Evaluator κ) (r : StepResult κ) : Prop :=
  ∀ ⦃t m'⦄ ⦃ρ ρ' : String → Nameless κ⦄, Prepared t m' → InStep m m' → s.readIn ρ = t.readIn ρ' →
    (∀ x, (ρ x).IsVar) → (∀ x, (ρ' x).IsVar) → ∃ r' m₁', StepTo t m' r' m₁' ∧ r.Alike ρ ρ' r'

namespace Matched

/-- The case of a variable. -/
theorem var (x : String) (m : Evaluator κ) : Matched (.var x) m (.normal (.var x)) := by
  intro t m' ρ ρ' _ _ hread hρ _
  obtain ⟨y, hu, hy⟩ := Term.ungroup_eq_var hread.symm (hρ x)
  exact ⟨_, _, .of_ungroup hu (.var y m'), .normal hy.symm⟩

/-- The case of an abstraction. -/
theorem lam (hb : Matched b m r) : Matched (.lam p b) m (r.map (.lam p)) := by
  intro t m' ρ ρ' ht hin hread hρ hρ'
  obtain ⟨q, c, hu, hc⟩ := Term.ungroup_eq_lam hρ' hread.symm
  obtain ⟨r', m₁', hstep, hr⟩ := hb (ht.of_ungroup hu).body hin hc.symm
    (Term.isVar_underBinder hρ) (Term.isVar_underBinder hρ')
  exact ⟨_, _, .of_ungroup hu (.lam hstep), hr.map fun _ _ h => congrArg Nameless.lam h⟩

/-- The case of a binding whose value is normal. -/
theorem store {n : String} {v : Term κ} (hs : Matched s m (.normal v)) :
    Matched (.bind n s) m (.normal v) := by
  intro t m' ρ ρ' ht hin hread hρ hρ'
  obtain ⟨w, hu, hw⟩ := Term.ungroup_eq_bind hρ' hread.symm
  obtain ⟨r', m₁', hstep, hr⟩ := hs (ht.of_ungroup hu).value hin hw.symm hρ hρ'
  cases hr with
  | normal hv => exact ⟨_, _, .of_ungroup hu (.store hstep), .normal hv⟩

/-- The case of a binding whose value is not normal yet. -/
theorem value {n : String} (hr : ¬ r.IsNormal) (hs : Matched s m r) :
    Matched (.bind n s) m (r.map (.bind n)) := by
  intro t m' ρ ρ' ht hin hread hρ hρ'
  obtain ⟨w, hu, hw⟩ := Term.ungroup_eq_bind hρ' hread.symm
  obtain ⟨r', m₁', hstep, halike⟩ := hs (ht.of_ungroup hu).value hin hw.symm hρ hρ'
  exact ⟨_, _, .of_ungroup hu (.value (halike.isNormal hr) hstep),
    halike.map fun _ _ h => congrArg (Nameless.bind n) h⟩

/-- The case of a redex. The function of the other term is an abstraction as well, so the two
contractions come to the same. -/
theorem redex (hs : Prepared (.app f a) m) (hf : f.ungroup = .lam p b)
    (hc : contractStep p b a m = (r, m₁)) : Matched (.app f a) m r := by
  intro t m' ρ ρ' ht hin hread hρ hρ'
  obtain ⟨g, d, hu, hg, hd⟩ := Term.ungroup_eq_app hρ' hread.symm
  have hlam : g.readIn ρ' = (Term.lam p b).readIn ρ := by
    rw [hg, ← Term.readIn_ungroup f, hf]
  obtain ⟨q, c, hgu, hbody⟩ := Term.ungroup_eq_lam hρ' hlam
  have ht := ht.of_ungroup hu
  obtain ⟨r', m₁', hc', hr⟩ := contractStep_alike hc (hs.function.of_ungroup hf) hs.argument
    (ht.function.of_ungroup hgu) ht.argument hin hbody.symm hd.symm
  exact ⟨r', m₁', .of_ungroup hu (.redex hgu hc'), hr⟩

/-- The case of a binding that is applied to an argument. The value that it leaves is normal, and so
is that of the other term; therefore no parentheses hide the abstraction that is applied. -/
theorem stored (hs : Prepared (.app f a) m) (hl : ¬ f.ungroup.IsLam)
    (hf : StepTo f m (.normal (.lam p b)) m') (hc : contractStep p b a m' = (r, m₁))
    (ihf : Matched f m (.normal (.lam p b))) : Matched (.app f a) m r := by
  intro t n ρ ρ' ht hin hread hρ hρ'
  obtain ⟨g, d, hu, hg, hd⟩ := Term.ungroup_eq_app hρ' hread.symm
  have ht := ht.of_ungroup hu
  obtain ⟨r', n', hg', hr⟩ := ihf ht.function hin hg.symm hρ hρ'
  cases hr with
  | @normal _ w hw =>
    obtain ⟨q, c, hwu, hbody⟩ := Term.ungroup_eq_lam hρ' hw.symm
    rw [(hg'.normal rfl).ungroup_eq] at hwu
    subst hwu
    have hgrows := (hf.covers hs.function.covered rfl).1
    have hgrows' := (hg'.covers ht.function.covered rfl).1
    obtain ⟨r', n'', hc', hr⟩ := contractStep_alike hc (hf.prepared hs.function rfl)
      (hs.argument.grows hgrows) (hg'.prepared ht.function rfl) (ht.argument.grows hgrows')
      (hin.after_normal hf hg') hbody.symm hd.symm
    exact ⟨r', n'', .of_ungroup hu (.stored (Term.not_isLam_of_readIn hρ hl hg.symm) hg' hc'), hr⟩

/-- The case of the argument, where the function is normal and is no abstraction. -/
theorem argument {v : Term κ} (hl : ¬ f.ungroup.IsLam) (hf : StepTo f m (.normal v) m')
    (hv : ¬ v.IsLam) (ihf : Matched f m (.normal v)) (iha : Matched a m' r) :
    Matched (.app f a) m (r.map (.app v)) := by
  intro t n ρ ρ' ht hin hread hρ hρ'
  obtain ⟨g, d, hu, hg, hd⟩ := Term.ungroup_eq_app hρ' hread.symm
  have ht := ht.of_ungroup hu
  obtain ⟨r', n', hg', hr⟩ := ihf ht.function hin hg.symm hρ hρ'
  cases hr with
  | @normal _ w hw =>
    have hv' : ¬ w.IsLam := by
      rw [← (hg'.normal rfl).ungroup_eq]
      refine Term.not_isLam_of_readIn hρ ?_ hw
      rwa [(hf.normal rfl).ungroup_eq]
    have hgrows' := (hg'.covers ht.function.covered rfl).1
    obtain ⟨r', n'', ha', hra⟩ := iha (ht.argument.grows hgrows') (hin.after_normal hf hg')
      hd.symm hρ hρ'
    have hl' := Term.not_isLam_of_readIn hρ hl hg.symm
    exact ⟨_, n'', .of_ungroup hu (.argument hl' hg' hv' ha'),
      hra.map fun _ _ h => congrArg₂ Nameless.app hw h⟩

/-- The case of a function that is not normal yet. -/
theorem function (hl : ¬ f.ungroup.IsLam) (hr : ¬ r.IsNormal) (hf : Matched f m r) :
    Matched (.app f a) m (r.map (.app · a)) := by
  intro t m' ρ ρ' ht hin hread hρ hρ'
  obtain ⟨g, d, hu, hg, hd⟩ := Term.ungroup_eq_app hρ' hread.symm
  obtain ⟨r', m₁', hstep, halike⟩ := hf (ht.of_ungroup hu).function hin hg.symm hρ hρ'
  have hl' := Term.not_isLam_of_readIn hρ hl hg.symm
  exact ⟨_, m₁', .of_ungroup hu (.function hl' (halike.isNormal hr) hstep),
    halike.map fun _ _ h => congrArg₂ Nameless.app h hd.symm⟩

end Matched

/-- Steps of terms that read alike come to the same. -/
theorem StepTo.alike (h : StepTo s m r m₁) (hs : Prepared s m) : Matched s m r := by
  induction h with
  | var x m => exact .var x m
  | lam _ ih => exact .lam (ih hs.body)
  | group _ ih => exact ih hs.inner
  | store _ ih => exact .store (ih hs.value)
  | value hr _ ih => exact .value hr (ih hs.value)
  | redex hf hc => exact .redex hs hf hc
  | stored hl hf hc ih => exact .stored hs hl hf hc (ih hs.function)
  | argument hl hf hv _ ihf iha =>
    have hgrows := (hf.covers hs.function.covered rfl).1
    exact .argument hl hf hv (ihf hs.function) (iha (hs.argument.grows hgrows))
  | function hl hr _ ih => exact .function hl hr (ih hs.function)
  | metavar => exact absurd rfl hs.expanded.metavariable
  | const => exact absurd rfl hs.expanded.constant

/-- Reductions of terms that read alike come to values that read alike, or to the same error. -/
theorem reduce_alike (bound : Nat) (hs : Prepared s m) (ht : Prepared t m') (hin : InStep m m')
    (hread : s.readIn ρ = t.readIn ρ') (hρ : ∀ x, (ρ x).IsVar) (hρ' : ∀ x, (ρ' x).IsVar) :
    (∃ v w, (reduce bound s m).outcome = .ok v ∧ (reduce bound t m').outcome = .ok w ∧
        v.readIn ρ = w.readIn ρ') ∨
      ∃ e, (reduce bound s m).outcome = .error e ∧ (reduce bound t m').outcome = .error e := by
  induction bound generalizing s t m m' with
  | zero => exact .inr ⟨_, rfl, rfl⟩
  | succ bound ih =>
    have hstep := stepTo_step s m
    obtain ⟨r', m₁', hstep', hr⟩ := hstep.alike hs ht hin hread hρ hρ'
    rw [reduce, reduce, hstep'.step_eq]
    generalize step s m = out at hstep hr
    obtain ⟨r, m₁⟩ := out
    cases hr with
    | normal h => exact .inl ⟨_, _, rfl, rfl, h⟩
    | failed e => exact .inr ⟨e, rfl, rfl⟩
    | contracted h =>
      obtain ⟨hsteps, -⟩ := hstep.steps_of_contracted rfl
      obtain ⟨hsteps', -⟩ := hstep'.steps_of_contracted rfl
      have hin' : InStep m₁ m₁' :=
        ⟨by rw [hstep.budget_eq, hstep'.budget_eq, hin.budget],
          by rw [hsteps, hsteps', hin.steps]⟩
      exact ih (hstep.prepared hs rfl) (hstep'.prepared ht rfl) hin' h

/-! ## Evaluations -/

/-- An expansion stops at the first metavariable without a value, and where there is none it puts
the values in place of the metavariables. -/
theorem expandIn_cases (env : OrderedMap String (Term κ)) (binders : List String)
    (ht : t.Lacks .constant) (names : NameSupply) :
    (((t.references binders).map Prod.fst).find? (fun n => (env.get? n).isNone) = none ∧
        ∃ names', expandIn env t names = (.ok (t.splice env), names')) ∨
      ∃ n l names', ((t.references binders).map Prod.fst).find? (fun n => (env.get? n).isNone)
          = some n ∧ expandIn env t names = (.error (.unbound n l), names') := by
  induction t generalizing binders names with
  | var x => exact .inl ⟨rfl, _, rfl⟩
  | lam p b ih =>
    rcases ih (p :: binders) ht (names.use p) with ⟨hall, names', hx⟩ | ⟨n, l, names', hn, hx⟩
    · exact .inl ⟨hall, names', by rw [expandIn, hx]; rfl⟩
    · exact .inr ⟨n, l, names', hn, by rw [expandIn, hx]; rfl⟩
  | app f a ihf iha =>
    rw [Term.references, List.map_append, List.find?_append, expandIn]
    rcases ihf binders ht.1 names with ⟨hf, names₁, hxf⟩ | ⟨n, l, names₁, hf, hxf⟩
    · rcases iha binders ht.2 names₁ with ⟨ha, names₂, hxa⟩ | ⟨n, l, names₂, ha, hxa⟩
      · exact .inl ⟨by rw [hf, ha]; rfl, names₂, by rw [hxf]; simp only [hxa]; rfl⟩
      · exact .inr ⟨n, l, names₂, by rw [hf, ha]; rfl, by rw [hxf]; simp only [hxa]; rfl⟩
    · exact .inr ⟨n, l, names₁, by rw [hf]; rfl, by rw [hxf]⟩
  | group t ih | bind _ t ih =>
    rcases ih binders ht.2 names with ⟨hall, names', hx⟩ | ⟨n, l, names', hn, hx⟩
    · exact .inl ⟨hall, names', by rw [expandIn, hx]; rfl⟩
    · exact .inr ⟨n, l, names', hn, by rw [expandIn, hx]; rfl⟩
  | metavar n l =>
    rw [expandIn, Term.references]
    cases hv : env.get? n with
    | none => exact .inr ⟨n, l, names, by simp [hv], rfl⟩
    | some v => exact .inl ⟨by simp [hv], names.useAll v.names, by simp [Term.splice, hv]⟩
  | const => exact absurd rfl ht

/-- Evaluations of terms with the same nameless form, in one state, come to values with the same
nameless form, or to errors that differ at most in a place, if the values that are spliced in have
their free variables captured alike. -/
theorem evaluate_alike (bound : Nat) (henv : m.environment.HoldsNormal)
    (hsub : m.names.subscripts = true) (hs : s.Lacks .constant) (ht : t.Lacks .constant)
    (hst : s.nameless = t.nameless)
    (hcap : Term.CapturedAlike m.environment (s.references []) (t.references [])) :
    (∃ v w, (evaluate bound s m).outcome = .ok v ∧ (evaluate bound t m).outcome = .ok w ∧
        v.nameless = w.nameless) ∨
      ∃ e e', (evaluate bound s m).outcome = .error e ∧
        (evaluate bound t m).outcome = .error e' ∧ e.unlocated = e'.unlocated := by
  have hfree : ∀ x, (Term.scope [] x : Nameless κ).IsVar := Term.isVar_scope []
  simp only [Term.nameless, Term.namelessUnder_eq_readIn] at hst ⊢
  -- the metavariables of the two terms are the same, so both expansions stop at the same name
  have hrefs : (s.references []).map Prod.fst = (t.references []).map Prod.fst := by
    rw [Term.map_fst_references s [] hfree, hst, Term.map_fst_references t [] hfree]
  have hxs := expandIn_cases m.environment [] hs m.names.reset
  have hxt := expandIn_cases m.environment [] ht m.names.reset
  rw [hrefs] at hxs
  rw [evaluate, evaluate, expand, expand]
  rcases hxs with ⟨hall, names, hxs⟩ | ⟨n, l, names, hn, hxs⟩
  · rcases hxt with ⟨-, names', hxt⟩ | ⟨n, l, names', hn, -⟩
    · have hread := Term.readIn_splice hst hcap
      have hprepared : ∀ {u u' : Term κ} {names : NameSupply},
          expandIn m.environment u m.names.reset = (.ok u', names) →
            Prepared u' { m.restart with names } := by
        intro u u' names hx
        obtain ⟨hg, hcov⟩ := covers_expandIn hx
        exact ⟨expanded_expandIn henv hx, hcov, hg.subscripts.trans hsub⟩
      have hrun := reduce_alike bound (hprepared hxs) (hprepared hxt) ⟨rfl, rfl⟩ hread hfree hfree
      simp only [restart, hxs, hxt, Run.outcome_cons]
      rcases hrun with hvalues | ⟨e, he, he'⟩
      · exact .inl hvalues
      · exact .inr ⟨e, e, he, he', rfl⟩
    · rw [hall] at hn
      cases hn
  · rcases hxt with ⟨hall, names', -⟩ | ⟨n', l', names', hn', hxt⟩
    · rw [hall] at hn
      cases hn
    · obtain rfl : n = n' := Option.some.inj (hn.symm.trans hn')
      simp only [restart, hxs, hxt]
      exact .inr ⟨_, _, rfl, rfl, rfl⟩

/-- After any series of calls, where names do not run out: α-equivalent expressions evaluate to
α-equivalent values or to errors that differ at most in the place of a metavariable, and this with
every bound, so that neither gives a value if the other does not. The condition is on the values
that are spliced in: the binders of the two expressions must capture their free variables alike. -/
theorem evaluate_alpha {o : Options} (ho : o.subscripts = true) (calls : List (Call Empty))
    {s t : Expr} (hst : s.alphaEquals t = true)
    (hcap : Term.CapturedAlike (after o calls).environment (s.references []) (t.references []))
    (bound : Nat) :
    (∃ v w, (evaluate bound s (after o calls)).outcome = .ok v ∧
        (evaluate bound t (after o calls)).outcome = .ok w ∧ v.alphaEquals w = true) ∨
      ∃ e e', (evaluate bound s (after o calls)).outcome = .error e ∧
        (evaluate bound t (after o calls)).outcome = .error e' ∧ e.unlocated = e'.unlocated := by
  have hsub : (after o calls).names.subscripts = true :=
    (sameSetup_after o calls).subscripts.trans ho
  simp only [Term.alphaEquals_iff_nameless] at hst ⊢
  exact evaluate_alike bound (holdsNormal_after o calls) hsub s.lacks_constant t.lacks_constant
    hst hcap

/-- With the open value `a` stored under `X`, no binder of `\y.X y` or `\z.(X z)` captures it, and
the two evaluate alike. -/
theorem evaluate_alpha_open :
    ∃ (calls : List (Call Empty)) (s t : Expr),
      calls = [.evaluate 1 (.bind "X" (.var "a"))] ∧
      s = .lam "y" (.app (.metavar "X" none) (.var "y")) ∧
      t = .lam "z" (.group (.app (.metavar "X" none) (.var "z"))) ∧ s.alphaEquals t = true ∧
      (after { subscripts := true } calls).environment.get? "X" = some (.var "a") ∧
      Term.CapturedAlike (after { subscripts := true } calls).environment (s.references [])
        (t.references []) ∧
      (evaluate 1 s (after { subscripts := true } calls)).outcome
        = .ok (.lam "y" (.app (.var "a") (.var "y"))) ∧
      ∃ w, (evaluate 1 t (after { subscripts := true } calls)).outcome = .ok w ∧
        (Term.lam "y" (.app (.var "a") (.var "y"))).alphaEquals w = true := by
  let calls : List (Call Empty) := [.evaluate 1 (.bind "X" (.var "a"))]
  let s : Expr := .lam "y" (.app (.metavar "X" none) (.var "y"))
  let t : Expr := .lam "z" (.group (.app (.metavar "X" none) (.var "z")))
  have hX : (after { subscripts := true } calls).environment.get? "X" = some (.var "a") := rfl
  have hst : s.alphaEquals t = true := by decide
  have hcap : Term.CapturedAlike (after { subscripts := true } calls).environment
      (s.references []) (t.references []) := by
    intro r hr v x hv hx
    obtain rfl : r = (("X", ["y"]), ("X", ["z"])) := List.mem_singleton.1 hr
    obtain rfl : v = .var "a" := Option.some.inj (hv.symm.trans hX)
    obtain rfl : "a" = x := hx
    rfl
  have hs : (evaluate 1 s (after { subscripts := true } calls)).outcome
      = .ok (.lam "y" (.app (.var "a") (.var "y"))) := rfl
  refine ⟨calls, s, t, rfl, rfl, rfl, hst, hX, hcap, hs, ?_⟩
  rcases evaluate_alpha rfl calls hst hcap 1 with ⟨v, w, hv, hw, hvw⟩ | ⟨e, e', he, -, -⟩
  · rw [hs] at hv
    cases hv
    exact ⟨w, hw, hvw⟩
  · rw [hs] at he
    cases he

/-- Where a binder captures a free variable of a value, α-equivalent expressions may have values
that are not: with `y` stored under `X`, the expressions `\y.X` and `\z.X` are α-equivalent, and the
first evaluates to the identity and the second to a constant function. -/
theorem evaluate_captured :
    ∃ (calls : List (Call Empty)) (x s t : Expr), Term.parse "X <- y" = .ok x ∧
      Term.parse "\\y.X" = .ok s ∧ Term.parse "\\z.X" = .ok t ∧ calls = [.evaluate 1 x] ∧
      s.alphaEquals t = true ∧
      (evaluate 1 s (after { subscripts := true } calls)).outcome = .ok (.lam "y" (.var "y")) ∧
      (evaluate 1 t (after { subscripts := true } calls)).outcome = .ok (.lam "z" (.var "y")) ∧
      (Term.lam "y" (.var "y") : Expr).alphaEquals (.lam "z" (.var "y")) = false := by
  refine ⟨[.evaluate 1 (.bind "X" (.var "y"))], .bind "X" (.var "y"),
    .lam "y" (.metavar "X" (some ⟨1, 4⟩)), .lam "z" (.metavar "X" (some ⟨1, 4⟩)), ?_, ?_, ?_, rfl,
    by decide, rfl, rfl, by decide⟩
  · cbv
  · cbv
  · cbv

end Evaluator

end NormalOrder
