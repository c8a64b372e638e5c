import NormalOrder.Proofs.Evaluator.Preservation
import NormalOrder.Proofs.Evaluator.Soundness
import NormalOrder.Proofs.Names.FirstFit

/-!
# What an evaluation comes to

An evaluation gives a value, or it finds a metavariable without one, or the budget refuses a
contraction, or it has not come to an end within its bound. It breaks no assumption between its
stages, save for one: where subscripts are not allowed it may run out of names, and then every
letter is in use (`evaluate_outcome`). This holds in every state that calls can lead to, also calls
that failed.

The environment never holds a metavariable, so there is none after expansion (`expanded_expandIn`),
and no step brings one in (`StepTo.expanded`). What then makes a substitution fail is a missing name
and nothing else (`exhausted_of_subst`).
-/

namespace NormalOrder

variable {κ : Type}

/-! ## Names that run out -/

/-- A supply that has no name left allows no subscripts and has every letter in use. -/
theorem NameSupply.letters_of_fresh {s : NameSupply} (h : s.fresh = none) :
    s.subscripts = false ∧
      ∀ c : Char, 'a' ≤ c → c ≤ 'z' → s.contains (String.singleton c) = true := by
  obtain ⟨hsub, hused⟩ := fresh_eq_none_iff.1 h
  refine ⟨hsub, fun c hlo hhi => ?_⟩
  have hlo' : 97 ≤ c.toNat := hlo
  have hhi' : c.toNat ≤ 122 := hhi
  have hlt : c.toNat - 97 < 26 := by omega
  have hletter := hused (c.toNat - 97) hlt
  rwa [candidate_of_lt hlt, show 'a'.toNat + (c.toNat - 97) = c.toNat from Nat.add_sub_cancel' hlo',
    Char.ofNat_toNat] at hletter

/-! ## Expanded terms -/

namespace Term

/-- A term without metavariables and foreign constants, as expansion leaves it. -/
structure Expanded (t : Term κ) : Prop where
  metavariable : t.Lacks .metavariable
  constant : t.Lacks .constant

end Term

namespace Evaluator

variable {p : String} {b a t t' u : Term κ} {m m' m'' : Evaluator κ} {r : StepResult κ}
  {e : EvalError} {bound : Nat}

/-! ## What calls leave as it was set up -/

/-- `m'` is set up as `m` is: it has the same budget, and names of the same kind. -/
structure SameSetup (m m' : Evaluator κ) : Prop where
  budget : m'.budget = m.budget
  subscripts : m'.names.subscripts = m.names.subscripts

/-- A state is set up as itself. -/
theorem SameSetup.refl (m : Evaluator κ) : SameSetup m m := ⟨rfl, rfl⟩

/-- Being set up alike is transitive. -/
theorem SameSetup.trans (h : SameSetup m m') (h' : SameSetup m' m'') : SameSetup m m'' :=
  ⟨h'.budget.trans h.budget, h'.subscripts.trans h.subscripts⟩

/-- A contraction leaves the setup as it is, whatever comes of it. -/
theorem sameSetup_contract (p : String) (b a : Term κ) (m : Evaluator κ) :
    SameSetup m (contract p b a m).2 := by
  have hsub := Term.subscripts_subst p a b m.names
  rw [contract]
  split
  · exact ⟨rfl, rfl⟩
  · split
    · next hs =>
      rw [hs] at hsub
      exact ⟨rfl, hsub⟩
    · next hs =>
      rw [hs] at hsub
      exact ⟨rfl, hsub⟩

/-- A contraction of the whole term leaves the setup as it is. -/
theorem sameSetup_contractStep (h : contractStep p b a m = (r, m')) : SameSetup m m' := by
  have hsetup := sameSetup_contract p b a m
  rw [contractStep] at h
  split at h
  · next hc =>
    cases h
    rwa [hc] at hsetup
  · next hc =>
    cases h
    rwa [hc] at hsetup

variable [Shown κ]

/-- A step leaves the setup as it is. -/
theorem StepTo.sameSetup (h : StepTo t m r m') : SameSetup m m' := by
  induction h with
  | var | metavar | const => exact .refl _
  | lam _ ih | group _ ih | value _ _ ih | function _ _ _ ih => exact ih
  | store _ ih => exact ⟨ih.budget, ih.subscripts⟩
  | redex _ hc => exact sameSetup_contractStep hc
  | stored _ _ hc ih => exact ih.trans (sameSetup_contractStep hc)
  | argument _ _ _ _ ihf iha => exact ihf.trans iha

/-- A reduction leaves the setup as it is, also if it is broken off. -/
theorem sameSetup_reduce (bound : Nat) (t : Term κ) (m : Evaluator κ) :
    SameSetup m (reduce bound t m).state := by
  induction bound generalizing t m with
  | zero => exact .refl m
  | succ bound ih =>
    have hstep := (stepTo_step t m).sameSetup
    rw [reduce]
    split
    · next hs =>
      rw [hs] at hstep
      exact hstep
    · next u t' m' hs =>
      rw [hs] at hstep
      exact hstep.trans (ih t' m')
    · next hs =>
      rw [hs] at hstep
      exact hstep

/-- Whether subscripts are allowed is not changed by an expansion. -/
theorem subscripts_expandIn (env : OrderedMap String (Term κ)) (t : Term κ) (names : NameSupply) :
    (expandIn env t names).2.subscripts = names.subscripts := by
  induction t generalizing names with
  | var | const => rfl
  | lam p b ih => exact ih (names.use p)
  | app f a ihf iha =>
    have hf := ihf names
    rw [expandIn]
    split
    · next he =>
      rw [he] at hf
      exact hf
    · next hok =>
      rw [hok] at hf
      exact (iha _).trans hf
  | group t ih | bind n t ih => exact ih names
  | metavar n l =>
    rw [expandIn]
    split
    · rfl
    · exact (names.grows_useAll _).subscripts

/-- A call leaves the setup as it is, whatever comes of it. -/
theorem Call.sameSetup (c : Call κ) (m : Evaluator κ) : SameSetup m (c.run m).2 := by
  have hexpand : ∀ (t : Term κ) (m : Evaluator κ), SameSetup m (Evaluator.expand t m).2 :=
    fun t m => ⟨rfl, subscripts_expandIn m.environment t m.names⟩
  cases c with
  | evaluate bound t =>
    have hx := hexpand t m.restart
    have hsetup : SameSetup m (Evaluator.expand t m.restart).2 := ⟨hx.budget, hx.subscripts⟩
    rw [Call.run, Evaluator.evaluate]
    split
    · next he =>
      rw [he] at hsetup
      exact hsetup
    · next t' m' hok =>
      rw [hok] at hsetup
      exact hsetup.trans (sameSetup_reduce bound t' m')
  | expand t => exact hexpand t m
  | reduce bound t => exact sameSetup_reduce bound t m
  | contract p b a => exact sameSetup_contract p b a m

/-- After every series of calls an evaluator is set up as the options ask. -/
theorem sameSetup_after (o : Options) (calls : List (Call κ)) :
    SameSetup (blank o) (after o calls) := by
  have hfold : ∀ (calls : List (Call κ)) (m : Evaluator κ),
      SameSetup m (calls.foldl (fun m c => (c.run m).2) m) := by
    intro calls
    induction calls with
    | nil => exact .refl
    | cons c calls ih => exact fun m => (c.sameSetup m).trans (ih _)
  exact hfold calls (blank o)

/-! ## Expanded terms stay expanded -/

/-- A step of an expanded term leaves an expanded term. -/
theorem StepTo.expanded (h : StepTo t m r m') (ht : t.Expanded) (hu : r.term? = some u) :
    u.Expanded :=
  ⟨h.lacks ht.metavariable hu, h.lacks ht.constant hu⟩

/-- Where the environment holds normal terms, what an expansion gives is expanded. -/
theorem expanded_expandIn {env : OrderedMap String (Term κ)} {names names' : NameSupply}
    (henv : env.HoldsNormal) (h : expandIn env t names = (.ok t', names')) : t'.Expanded := by
  induction t generalizing t' names names' with
  | var x =>
    cases h
    exact ⟨trivial, trivial⟩
  | lam p b ih =>
    obtain ⟨b', hb, rfl⟩ := map_fst_eq_ok h
    have hb' := ih hb
    exact ⟨hb'.metavariable, hb'.constant⟩
  | app f a ihf iha =>
    rw [expandIn] at h
    split at h
    · cases h
    · next f' names₁ hf =>
      obtain ⟨a', ha, rfl⟩ := map_fst_eq_ok h
      have hf' := ihf hf
      have ha' := iha ha
      exact ⟨⟨hf'.metavariable, ha'.metavariable⟩, ⟨hf'.constant, ha'.constant⟩⟩
  | group t ih | bind n t ih =>
    obtain ⟨u, hu, rfl⟩ := map_fst_eq_ok h
    have hu' := ih hu
    exact ⟨⟨by simp, hu'.metavariable⟩, ⟨by simp, hu'.constant⟩⟩
  | metavar n l =>
    rw [expandIn] at h
    split at h
    · cases h
    · next v hv =>
      cases h
      exact ⟨(henv n _ hv).lacks _, (henv n _ hv).lacks _⟩
  | const => cases h

/-- An expansion fails at a metavariable without a value, or at a foreign constant. -/
theorem fails_of_expandIn {env : OrderedMap String (Term κ)} {names names' : NameSupply}
    (h : expandIn env t names = (.error e, names')) :
    (∃ n l, e = .unbound n l ∧ env.get? n = none) ∨
      (∃ v, e = .violation v) ∧ ¬ t.Lacks .constant := by
  induction t generalizing names names' with
  | var => cases h
  | lam p b ih =>
    exact (ih (map_fst_eq_error h)).imp_right (And.imp_right (mt Term.lacks_lam.1))
  | app f a ihf iha =>
    rw [expandIn] at h
    split at h
    · next hf =>
      cases h
      exact (ihf hf).imp_right (And.imp_right (mt And.left))
    · exact (iha (map_fst_eq_error h)).imp_right (And.imp_right (mt And.right))
  | group t ih | bind n t ih =>
    exact (ih (map_fst_eq_error h)).imp_right (And.imp_right (mt And.right))
  | metavar n l =>
    rw [expandIn] at h
    split at h
    · next hn =>
      cases h
      exact .inl ⟨n, l, rfl, hn⟩
    · cases h
  | const =>
    cases h
    exact .inr ⟨⟨_, rfl⟩, fun ht => ht rfl⟩

/-- Without foreign constants, an expansion fails only at a metavariable without a value. -/
theorem unbound_of_expandIn {env : OrderedMap String (Term κ)} {names names' : NameSupply}
    (ht : t.Lacks .constant) (h : expandIn env t names = (.error e, names')) :
    ∃ n l, e = .unbound n l ∧ env.get? n = none :=
  (fails_of_expandIn h).resolve_right fun hv => hv.2 ht

/-! ## What stops an evaluation -/

/-- `e` stops an evaluation in the state `m`: the budget does not allow as many contractions as are
counted, or no name is left. -/
def Stops (e : EvalError) (m : Evaluator κ) : Prop :=
  m.budget.refusal? m.steps = some e ∨
    (∃ k, e = .violation (.namesExhausted k)) ∧ m.names.fresh = none

omit [Shown κ] in
/-- A contraction in a body without metavariables fails only if it is stopped. -/
theorem stops_of_contract (h : contract p b a m = (.error e, m')) (hb : b.Lacks .metavariable) :
    Stops e m' := by
  rw [contract] at h
  split at h
  · next hrefused =>
    cases h
    exact .inl hrefused
  · split at h
    · next hs =>
      cases h
      obtain ⟨⟨k, rfl⟩, hfresh⟩ := Term.exhausted_of_subst hs hb
      exact .inr ⟨⟨k, rfl⟩, hfresh⟩
    · cases h

/-- A step of an expanded term fails only if it is stopped. -/
theorem StepTo.stops (h : StepTo t m r m') (ht : t.Expanded) (he : r = .failed e) :
    Stops e m' := by
  have hcontract : ∀ {p : String} {b a : Term κ} {m m' : Evaluator κ},
      b.Lacks .metavariable → contractStep p b a m = (.failed e, m') → Stops e m' := by
    intro p b a m m' hb hc
    rcases contractStep_cases hc with ⟨e', he', hk⟩ | ⟨t, ht, -⟩
    · cases he'
      exact stops_of_contract hk hb
    · cases ht
  induction h with
  | var | store => cases he
  | lam _ ih => exact ih ⟨ht.metavariable, ht.constant⟩ (StepResult.map_eq_failed.1 he)
  | group _ ih => exact ih ⟨ht.metavariable.2, ht.constant.2⟩ he
  | value _ _ ih =>
    exact ih ⟨ht.metavariable.2, ht.constant.2⟩ (StepResult.map_eq_failed.1 he)
  | redex hf hc =>
    subst he
    have hlam := (kept_lacks _).ungroup ht.metavariable.1
    rw [hf] at hlam
    exact hcontract (Term.lacks_lam.1 hlam) hc
  | stored _ hf hc =>
    subst he
    exact hcontract (Term.lacks_lam.1 (hf.lacks ht.metavariable.1 rfl)) hc
  | argument _ _ _ _ _ iha =>
    exact iha ⟨ht.metavariable.2, ht.constant.2⟩ (StepResult.map_eq_failed.1 he)
  | function _ _ _ ih =>
    exact ih ⟨ht.metavariable.1, ht.constant.1⟩ (StepResult.map_eq_failed.1 he)
  | metavar => exact absurd rfl ht.metavariable
  | const => exact absurd rfl ht.constant

/-- A run from an expanded term fails only if it is stopped. -/
theorem RunTo.stops {run : Run κ} (h : RunTo t m run) (ht : t.Expanded)
    (he : run.outcome = .error e) : Stops e run.state := by
  induction h with
  | normal => cases he
  | failed h =>
    cases he
    exact h.stops ht rfl
  | contracted h _ ih => exact ih (h.expanded ht rfl) he

/-- A reduction that is not broken off is the same with every larger bound. -/
theorem reduce_add (h : (reduce bound t m).outcome ≠ .error .unfinished) (k : Nat) :
    reduce (bound + k) t m = reduce bound t m := by
  induction bound generalizing t m with
  | zero => exact absurd rfl h
  | succ bound ih =>
    rw [show bound + 1 + k = bound + k + 1 by omega, reduce, reduce]
    rw [reduce] at h
    split
    · rfl
    · next hs =>
      rw [hs] at h
      rw [ih h]
    · rfl

/-- An evaluation that is not broken off is the same with every larger bound. -/
theorem evaluate_add (h : (evaluate bound t m).outcome ≠ .error .unfinished) (k : Nat) :
    evaluate (bound + k) t m = evaluate bound t m := by
  rw [evaluate] at h
  rw [evaluate, evaluate]
  split
  · rfl
  · next hx =>
    rw [hx] at h
    rw [reduce_add h]

/-- Why an evaluation gives no value, where the environment holds normal terms: it is broken off, or
it finds a metavariable that has none, or it is stopped. -/
theorem evaluate_error (henv : m.environment.HoldsNormal) (ht : t.Lacks .constant)
    (he : (evaluate bound t m).outcome = .error e) :
    e = .unfinished ∨ (∃ n l, e = .unbound n l ∧ m.environment.get? n = none) ∨
      Stops e (evaluate bound t m).state := by
  rw [evaluate] at he ⊢
  split at he
  · next e' m' hx =>
    cases he
    obtain ⟨hx', -⟩ := Prod.mk.inj hx
    exact .inr (.inl (unbound_of_expandIn ht (Prod.ext hx' rfl)))
  · next t' m' hx =>
    obtain ⟨hx', -⟩ := Prod.mk.inj hx
    have hexp : t'.Expanded := expanded_expandIn henv (Prod.ext hx' rfl)
    by_cases hfin : (reduce bound t' m').outcome = .error .unfinished
    · rw [Run.outcome_cons, hfin] at he
      cases he
      exact .inl rfl
    · exact .inr (.inr ((runTo_reduce hfin).stops hexp he))

omit [Shown κ] in
/-- How a budget refuses a number of contractions. -/
theorem refusal?_eq_some {b : Budget} {k : Nat} (h : b.refusal? k = some e) :
    (∃ n, b = .atMost n ∧ e = .overBudget n) ∨ b = .blank ∧ e = .blankBudget := by
  cases b with
  | unbounded => cases h
  | atMost n =>
    rw [Budget.refusal?] at h
    split at h
    · cases h
      exact .inl ⟨n, rfl, rfl⟩
    · cases h
  | blank =>
    cases h
    exact .inr ⟨rfl, rfl⟩

/-- What an evaluation comes to that begins after any series of calls: it gives a value; or it finds
a metavariable that has none; or it has a budget that it exceeds; or it is broken off at its bound,
which does not happen with a bound that suffices; or names may not have subscripts, and none is left
because every letter is in use. No other assumption between the stages of evaluation is broken. -/
theorem evaluate_outcome (o : Options) (calls : List (Call Empty)) (bound : Nat) (t : Expr) :
    ((∃ v, (evaluate bound t (after o calls)).outcome = .ok v) ∨
      (∃ n l, (evaluate bound t (after o calls)).outcome = .error (.unbound n l) ∧
        (after o calls).environment.get? n = none) ∨
      (∃ n, o.budget = .atMost n ∧
        (evaluate bound t (after o calls)).outcome = .error (.overBudget n)) ∨
      (o.budget = .blank ∧ (evaluate bound t (after o calls)).outcome = .error .blankBudget) ∨
      (evaluate bound t (after o calls)).outcome = .error .unfinished ∨
      (o.subscripts = false ∧
        (∃ k, (evaluate bound t (after o calls)).outcome
          = .error (.violation (.namesExhausted k))) ∧
        ∀ c : Char, 'a' ≤ c → c ≤ 'z' →
          (evaluate bound t (after o calls)).state.names.contains (String.singleton c) = true)) ∧
    ((evaluate bound t (after o calls)).outcome ≠ .error .unfinished →
      ∀ k, evaluate (bound + k) t (after o calls) = evaluate bound t (after o calls)) := by
  refine ⟨?_, evaluate_add⟩
  have hsetup := (sameSetup_after o calls).trans
    (Call.sameSetup (.evaluate bound t) (after o calls))
  cases hr : (evaluate bound t (after o calls)).outcome with
  | ok v => exact .inl ⟨v, rfl⟩
  | error e =>
    have he := evaluate_error (holdsNormal_after o calls) t.lacks_constant hr
    rcases he with rfl | ⟨n, l, rfl, hn⟩ | hrefused | ⟨⟨k, rfl⟩, hfresh⟩
    · exact .inr (.inr (.inr (.inr (.inl rfl))))
    · exact .inr (.inl ⟨n, l, rfl, hn⟩)
    · rw [show (evaluate bound t (after o calls)).state.budget = o.budget from hsetup.budget]
        at hrefused
      rcases refusal?_eq_some hrefused with ⟨n, hb, rfl⟩ | ⟨hb, rfl⟩
      · exact .inr (.inr (.inl ⟨n, hb, rfl⟩))
      · exact .inr (.inr (.inr (.inl ⟨hb, rfl⟩)))
    · obtain ⟨hsub, hletters⟩ := NameSupply.letters_of_fresh hfresh
      have hsub' : o.subscripts = false := hsetup.subscripts.symm.trans hsub
      exact .inr (.inr (.inr (.inr (.inr ⟨hsub', ⟨k, rfl⟩, hletters⟩))))

end Evaluator

end NormalOrder
