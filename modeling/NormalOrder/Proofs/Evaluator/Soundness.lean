import NormalOrder.Proofs.Evaluator.History

/-!
# Evaluation is sound

What an evaluation gives is reached by β-steps from the term after expansion (`evaluate_sound`). A
binding counts as its value here, as parentheses count as what stands inside them: `Term.bare`
drops both, and `Nameless.unbind` drops the bindings of a nameless term.

A contraction is a β-step because no binder that it renames takes a name that occurs in its way, and
that is so because the names in use cover the term that is being reduced. Expansion establishes it
(`covers_expandIn`) and every step preserves it (`StepTo.covers`), so the whole term makes a β-step
with every step that contracts (`StepTo.beta`), and none with a step that finds it normal
(`StepTo.unbind_eq`).
-/

namespace NormalOrder

variable {κ : Type}

/-! ## Bindings replaced by their values -/

namespace Nameless

/-- The term with every binding replaced by its value. -/
def unbind : Nameless κ → Nameless κ
  | bound i => bound i
  | free x => free x
  | lam b => lam b.unbind
  | app f a => app f.unbind a.unbind
  | bind _ t => t.unbind
  | metavar n => metavar n
  | const c => const c

/-- Renaming does not touch bindings. -/
theorem unbind_rename (t : Nameless κ) (ξ : Nat → Nat) :
    (t.rename ξ).unbind = t.unbind.rename ξ := by
  induction t generalizing ξ with
  | bound | free | metavar | const => rfl
  | lam b ih => simp only [rename, unbind, ih]
  | app f a ihf iha => simp only [rename, unbind, ihf, iha]
  | bind n t ih => exact ih ξ

/-- A substitution without its bindings, under a binder. -/
theorem unbind_lift (σ : Nat → Nameless κ) :
    (fun i => (lift σ i).unbind) = lift (fun i => (σ i).unbind) := by
  funext i
  cases i with
  | zero => rfl
  | succ i => exact unbind_rename (σ i) _

/-- Bindings can be replaced before a substitution or after it. -/
theorem unbind_subst (t : Nameless κ) (σ : Nat → Nameless κ) :
    (t.subst σ).unbind = t.unbind.subst (fun i => (σ i).unbind) := by
  induction t generalizing σ with
  | bound | free | metavar | const => rfl
  | lam b ih => simp only [subst, unbind, ih, unbind_lift]
  | app f a ihf iha => simp only [subst, unbind, ihf, iha]
  | bind n t ih => exact ih σ

/-- Bindings can be replaced before an instantiation or after it. -/
theorem unbind_instantiate (b a : Nameless κ) :
    (b.instantiate a).unbind = b.unbind.instantiate a.unbind := by
  rw [instantiate, unbind_subst, instantiate]
  congr 1
  funext i
  cases i <;> rfl

end Nameless

namespace Term

/-- The term without parentheses and with every binding replaced by its value. -/
def bare : Term κ → Term κ
  | var x => var x
  | lam p b => lam p b.bare
  | app f a => app f.bare a.bare
  | group t => t.bare
  | bind _ t => t.bare
  | metavar n l => metavar n l
  | const c => const c

/-- Bindings can be replaced before the nameless form is taken or after it. -/
theorem namelessUnder_bare (t : Term κ) (binders : List String) :
    t.bare.namelessUnder binders = (t.namelessUnder binders).unbind := by
  induction t generalizing binders with
  | var x =>
    rw [bare, namelessUnder]
    cases placeOf x binders <;> rfl
  | metavar | const => rfl
  | lam p b ih => simp only [bare, namelessUnder, Nameless.unbind, ih]
  | app f a ihf iha => simp only [bare, namelessUnder, Nameless.unbind, ihf, iha]
  | group t ih | bind n t ih => exact ih binders

/-- The nameless form of a term with its bindings replaced by their values. -/
theorem nameless_bare (t : Term κ) : t.bare.nameless = t.nameless.unbind :=
  t.namelessUnder_bare []

/-- A normal term has no parentheses and no bindings. -/
theorem Normal.bare_eq {t : Term κ} (h : t.Normal) : t.bare = t := by
  induction t with
  | var => rfl
  | lam p b ih => rw [bare, ih h]
  | app f a ihf iha => rw [bare, ihf h.2.1, iha h.2.2]
  | group | bind | metavar | const => exact h.elim

end Term

namespace Evaluator

/-! ## The names in use -/

variable {p : String} {b a t t' u v : Term κ} {m m' : Evaluator κ} {r : StepResult κ}

/-- A supply that covers a term covers what is left of it without the parentheses around it. -/
theorem covers_of_ungroup {names : NameSupply} (h : t.ungroup = u) (ht : names.Covers t) :
    names.Covers u := by
  rwa [← h, NameSupply.Covers, Term.names_ungroup]

/-- A contraction of covered terms gives a covered term. -/
theorem Contracts.covers (h : Contracts p b a m t m') (hb : m.names.Covers (.lam p b))
    (ha : m.names.Covers a) : m.names.Grows m'.names ∧ m'.names.Covers t :=
  ⟨h.subst.grows, h.subst.covers (NameSupply.covers_lam.1 hb).2 ha⟩

/-- A contraction of covered terms reads as the body with the argument for its parameter. -/
theorem Contracts.readIn (h : Contracts p b a m t m') (hb : m.names.Covers (.lam p b))
    (ha : m.names.Covers a) (ρ : String → Nameless κ) :
    t.readIn ρ = (b.readIn (Term.underBinder p ρ)).instantiate (a.readIn ρ) := by
  rw [Term.instantiate_readIn, h.subst.readIn (NameSupply.covers_lam.1 hb).2 ha]

/-- A contraction of covered terms is a β-step. -/
theorem Contracts.beta (h : Contracts p b a m t m') (hb : m.names.Covers (.lam p b))
    (ha : m.names.Covers a) (ρ : String → Nameless κ) :
    Nameless.Beta (((Term.lam p b).app a).readIn ρ).unbind (t.readIn ρ).unbind := by
  rw [h.readIn hb ha, Nameless.unbind_instantiate]
  exact .redex _ _

variable [Shown κ]

/-- After an expansion that succeeds the supply covers the expanded term. -/
theorem covers_expandIn {env : OrderedMap String (Term κ)} {names names' : NameSupply}
    (h : expandIn env t names = (.ok t', names')) : names.Grows names' ∧ names'.Covers t' := by
  induction t generalizing t' names names' with
  | var x =>
    cases h
    refine ⟨names.grows_use x, fun y hy => ?_⟩
    obtain rfl := List.mem_singleton.1 hy
    exact (names.contains_use y y).2 (.inl rfl)
  | lam p b ih =>
    obtain ⟨b', hb, rfl⟩ := map_fst_eq_ok h
    obtain ⟨hg, hcov⟩ := ih hb
    have hp : names'.contains p = true :=
      hg.contains p ((names.contains_use p p).2 (.inl rfl))
    exact ⟨(names.grows_use p).trans hg, NameSupply.covers_lam.2 ⟨hp, hcov⟩⟩
  | app f a ihf iha =>
    rw [expandIn] at h
    split at h
    · cases h
    · next f' names₁ hf =>
      obtain ⟨a', ha, rfl⟩ := map_fst_eq_ok h
      obtain ⟨hgf, hcf⟩ := ihf hf
      obtain ⟨hga, hca⟩ := iha ha
      exact ⟨hgf.trans hga, NameSupply.covers_app.2 ⟨hga.covers hcf, hca⟩⟩
  | group t ih | bind n t ih =>
    obtain ⟨u, hu, rfl⟩ := map_fst_eq_ok h
    obtain ⟨hg, hcov⟩ := ih hu
    exact ⟨hg, hcov⟩
  | metavar n l =>
    rw [expandIn] at h
    split at h
    · cases h
    · next v hv =>
      cases h
      exact ⟨names.grows_useAll _, fun x hx => (NameSupply.contains_useAll names _ x).2 (.inl hx)⟩
  | const => cases h

/-- After an expansion that succeeds the names in use cover the expanded term. -/
theorem covers_expand (h : expand t m = (.ok t', m')) : m'.names.Covers t' := by
  obtain ⟨he, rfl⟩ := Prod.mk.inj h
  exact (covers_expandIn (Prod.ext he rfl)).2

/-- A step of a covered term leaves a covered term. -/
theorem StepTo.covers (h : StepTo t m r m') (ht : m.names.Covers t) (hu : r.term? = some u) :
    m.names.Grows m'.names ∧ m'.names.Covers u := by
  induction h generalizing u with
  | var =>
    cases hu
    exact ⟨.refl _, ht⟩
  | @lam p b m m' r _ ih =>
    obtain ⟨b', hb', rfl⟩ := StepResult.term?_map_eq_some.1 hu
    obtain ⟨hp, hb⟩ := NameSupply.covers_lam.1 ht
    obtain ⟨hg, hcov⟩ := ih hb hb'
    exact ⟨hg, NameSupply.covers_lam.2 ⟨hg.contains p hp, hcov⟩⟩
  | group _ ih | store _ ih => exact ih ht hu
  | value _ _ ih =>
    obtain ⟨t', ht', rfl⟩ := StepResult.term?_map_eq_some.1 hu
    obtain ⟨hg, hcov⟩ := ih ht ht'
    exact ⟨hg, hcov⟩
  | redex hf hc =>
    obtain ⟨-, hk⟩ := contracts_of_contractStep hc hu
    obtain ⟨hcf, hca⟩ := NameSupply.covers_app.1 ht
    exact hk.covers (covers_of_ungroup hf hcf) hca
  | stored _ _ hc ih =>
    obtain ⟨-, hk⟩ := contracts_of_contractStep hc hu
    obtain ⟨hcf, hca⟩ := NameSupply.covers_app.1 ht
    obtain ⟨hg, hcl⟩ := ih hcf rfl
    obtain ⟨hg', hcov⟩ := hk.covers hcl (hg.covers hca)
    exact ⟨hg.trans hg', hcov⟩
  | argument _ _ _ _ ihf iha =>
    obtain ⟨a', ha', rfl⟩ := StepResult.term?_map_eq_some.1 hu
    obtain ⟨hcf, hca⟩ := NameSupply.covers_app.1 ht
    obtain ⟨hgf, hcv⟩ := ihf hcf rfl
    obtain ⟨hga, hcov⟩ := iha (hgf.covers hca) ha'
    exact ⟨hgf.trans hga, NameSupply.covers_app.2 ⟨hga.covers hcv, hcov⟩⟩
  | function _ _ _ ih =>
    obtain ⟨f', hf', rfl⟩ := StepResult.term?_map_eq_some.1 hu
    obtain ⟨hcf, hca⟩ := NameSupply.covers_app.1 ht
    obtain ⟨hg, hcov⟩ := ih hcf hf'
    exact ⟨hg, NameSupply.covers_app.2 ⟨hcov, hg.covers hca⟩⟩
  | metavar | const => cases hu

/-! ## Steps as β-steps -/

/-- A step that finds no redex changes nothing but parentheses and bindings. -/
theorem StepTo.unbind_eq (h : StepTo t m r m') (hv : r = .normal v) (ρ : String → Nameless κ) :
    (t.readIn ρ).unbind = (v.readIn ρ).unbind := by
  induction h generalizing v ρ with
  | var =>
    cases hv
    rfl
  | lam _ ih =>
    obtain ⟨b', rfl, rfl⟩ := StepResult.map_eq_normal.1 hv
    rw [Term.readIn, Nameless.unbind, ih rfl, Term.readIn, Nameless.unbind]
  | group _ ih => exact ih hv ρ
  | store _ ih => exact ih hv ρ
  | value hr | function _ hr => exact absurd hv (StepResult.map_ne_normal hr)
  | redex _ hc | stored _ _ hc => exact absurd hv (contractStep_ne_normal hc)
  | argument _ _ _ _ ihf iha =>
    obtain ⟨a', rfl, rfl⟩ := StepResult.map_eq_normal.1 hv
    rw [Term.readIn, Nameless.unbind, ihf rfl, iha rfl, Term.readIn, Nameless.unbind]
  | metavar | const => cases hv

/-- A step that contracts a redex of a covered term is a β-step of the whole. -/
theorem StepTo.beta (h : StepTo t m r m') (ht : m.names.Covers t) (hu : r = .contracted u t')
    (ρ : String → Nameless κ) : Nameless.Beta (t.readIn ρ).unbind (t'.readIn ρ).unbind := by
  induction h generalizing u t' ρ with
  | var | store | metavar | const => cases hu
  | lam _ ih =>
    obtain ⟨b', rfl, rfl⟩ := StepResult.map_eq_contracted.1 hu
    exact .lam (ih (NameSupply.covers_lam.1 ht).2 rfl _)
  | group _ ih => exact ih ht hu ρ
  | value _ _ ih =>
    obtain ⟨v', rfl, rfl⟩ := StepResult.map_eq_contracted.1 hu
    exact ih ht rfl ρ
  | redex hf hc =>
    subst hu
    obtain ⟨-, hk⟩ := contracts_of_contractStep hc rfl
    obtain ⟨hcf, hca⟩ := NameSupply.covers_app.1 ht
    have hbeta := hk.beta (covers_of_ungroup hf hcf) hca ρ
    rwa [Term.readIn, ← hf, Term.readIn_ungroup] at hbeta
  | stored _ hfun hc =>
    subst hu
    obtain ⟨-, hk⟩ := contracts_of_contractStep hc rfl
    obtain ⟨hcf, hca⟩ := NameSupply.covers_app.1 ht
    obtain ⟨hg, hcl⟩ := hfun.covers hcf rfl
    -- the function was no abstraction before its binding was replaced by the value
    rw [Term.readIn, Nameless.unbind, hfun.unbind_eq rfl]
    exact hk.beta hcl (hg.covers hca) ρ
  | argument _ hfun _ _ _ iha =>
    obtain ⟨a', rfl, rfl⟩ := StepResult.map_eq_contracted.1 hu
    obtain ⟨hcf, hca⟩ := NameSupply.covers_app.1 ht
    obtain ⟨hg, -⟩ := hfun.covers hcf rfl
    rw [Term.readIn, Nameless.unbind, hfun.unbind_eq rfl]
    exact .argument (iha (hg.covers hca) rfl ρ)
  | function _ _ _ ih =>
    obtain ⟨f', rfl, rfl⟩ := StepResult.map_eq_contracted.1 hu
    exact .function (ih (NameSupply.covers_app.1 ht).1 rfl ρ)

/-- What a run gives is reached by β-steps from the covered term that it began with. -/
theorem RunTo.reduces {run : Run κ} (h : RunTo t m run) (ht : m.names.Covers t)
    (hv : run.outcome = .ok v) (ρ : String → Nameless κ) :
    Nameless.Reduces (t.readIn ρ).unbind (v.readIn ρ).unbind := by
  induction h with
  | normal h =>
    cases hv
    rw [h.unbind_eq rfl]
    exact .refl
  | failed => cases hv
  | contracted h _ ih =>
    obtain ⟨-, hcov⟩ := h.covers ht rfl
    exact .head (h.beta ht rfl ρ) (ih hcov hv)

/-- An evaluation that gives a value, in whatever state it begins, reaches it by β-steps from the
term after expansion, taken without its parentheses and with its bindings replaced by their
values. No contraction on the way captures a variable. -/
theorem evaluate_sound {bound : Nat} (h : (evaluate bound t m).outcome = .ok v) :
    ∃ t', (expand t m.restart).1 = .ok t' ∧ Nameless.Reduces t'.bare.nameless v.nameless := by
  have hnormal := normal_evaluate h
  rw [evaluate] at h
  split at h
  · cases h
  · next t' m' hx =>
    refine ⟨t', by rw [hx], ?_⟩
    have hred := (runTo_of_outcome h).reduces (covers_expand hx) h .free
    rwa [← Term.nameless_eq_readIn, ← Term.nameless_eq_readIn, ← Term.nameless_bare,
      ← Term.nameless_bare, hnormal.bare_eq] at hred

/-- A binder that has the name of the argument gets a fresh one and does not capture it. -/
theorem evaluate_sound_renamed :
    ∃ (t : Expr) (m : Evaluator Empty), t = .app (.lam "x" (.lam "y" (.var "x"))) (.var "y") ∧
      (evaluate 2 t m).outcome = .ok (.lam "a" (.var "y")) ∧
      ∃ t', (expand t m.restart).1 = .ok t' ∧
        Nameless.Reduces t'.bare.nameless (Term.lam "a" (.var "y")).nameless := by
  let t : Expr := .app (.lam "x" (.lam "y" (.var "x"))) (.var "y")
  let m : Evaluator Empty := blank {}
  let names := (NameSupply.new false).useAll ["x", "y", "x", "y"]
  have hx : expand t m.restart = (.ok t, { m with names }) := rfl
  have hfresh : names.fresh = some ("a", names.use "a") := rfl
  have hsubst : Term.subst "x" (.var "y") (.lam "y" (.var "x") : Expr) names
      = (.ok (.lam "a" (.var "y")), names.use "a") := by
    simp [Term.subst, Term.isFree, hfresh, Term.rename, Term.Substituted.map, Except.map]
  have hstep : step t { m with names } = (.contracted (.lam "a" (.var "y")) (.lam "a" (.var "y")),
      { m with names := names.use "a", steps := 1 }) := by
    show contractStep "x" (.lam "y" (.var "x")) (.var "y") { m with names } = _
    rw [contractStep, contract, hsubst]
    rfl
  have h : (evaluate 2 t m).outcome = .ok (.lam "a" (.var "y")) := by
    rw [evaluate, hx]
    show (reduce 2 t { m with names }).outcome = _
    rw [reduce, hstep]
    rfl
  exact ⟨t, m, rfl, h, evaluate_sound h⟩

end Evaluator

end NormalOrder
