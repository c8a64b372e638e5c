import NormalOrder.Proofs.Evaluator.Leftmost
import NormalOrder.Proofs.Nameless.Standard

/-!
# Evaluation finds normal forms

If a plain term has a normal form, evaluation without a budget comes to an end and gives it
(`evaluate_complete`). This is the normalization theorem carried over to the evaluator: what any
sequence of contractions reaches, if it is normal, the leftmost sequence reaches
(`Reduces.leftmostIn`), and reduction is that sequence (`exists_runTo`). Nothing is asked of the
subterms: a term that throws its argument away is evaluated also if the argument is `loop`.
-/

namespace NormalOrder.Evaluator

open Nameless

variable {κ : Type} {t : Term κ} {m : Evaluator κ} {w : Nameless κ}

/-! ## A term without a normal form -/

/-- A term that contracts to itself, and to nothing else. -/
def loop : Term κ :=
  .app (.lam "x" (.app (.var "x") (.var "x"))) (.lam "x" (.app (.var "x") (.var "x")))

/-- `loop` is a term of the λ-calculus proper. -/
theorem plain_loop : (loop : Term κ).Plain := by
  have hdup : (Term.lam "x" (.app (.var "x") (.var "x")) : Term κ).Normal := ⟨id, trivial, trivial⟩
  exact Term.plain_app hdup.plain hdup.plain

/-- `loop` has no normal form. -/
theorem not_normal_of_loop (h : Reduces (loop : Term κ).nameless w) : ¬ w.Normal := by
  have hself : Beta (loop : Term κ).nameless (loop : Term κ).nameless := .redex _ _
  have hbody : (lam (app (bound 0) (bound 0)) : Nameless κ).Normal :=
    normal_lam.2 (normal_app.2 ⟨id, Term.normal_of_isVar trivial, Term.normal_of_isVar trivial⟩)
  have hw : w = (loop : Term κ).nameless := by
    induction h with
    | refl => rfl
    | tail _ hb ih =>
      subst ih
      cases hb with
      | redex => rfl
      | function h | argument h => exact absurd h (hbody _)
  rw [hw]
  exact fun hn => hn _ hself

/-! ## Evaluation of plain terms -/

variable [Shown κ]

/-- Expansion leaves a plain term as it is. -/
theorem exists_expandIn (env : OrderedMap String (Term κ)) (names : NameSupply) (ht : t.Plain) :
    ∃ names', expandIn env t names = (.ok t, names') := by
  induction t generalizing names with
  | var => exact ⟨_, rfl⟩
  | lam p b ih =>
    obtain ⟨names', hb⟩ := ih (names.use p) ht.body
    exact ⟨names', by rw [expandIn, hb]; rfl⟩
  | app f a ihf iha =>
    obtain ⟨names', hf⟩ := ihf names ht.function
    obtain ⟨names'', ha⟩ := iha names' ht.argument
    refine ⟨names'', ?_⟩
    rw [expandIn, hf]
    simp only [ha]
    rfl
  | group t ih =>
    obtain ⟨names', ht'⟩ := ih names ht.inner
    exact ⟨names', by rw [expandIn, ht']; rfl⟩
  | bind => exact absurd rfl ht.binding.1
  | metavar => exact absurd rfl ht.metavariable
  | const => exact absurd rfl ht.constant

/-- Expansion makes a plain term ready to be reduced. -/
theorem exists_expand (ht : t.Plain) (hsub : m.names.subscripts = true) :
    ∃ m', expand t m.restart = (.ok t, m') ∧ Ready t m' ∧ m'.budget = m.budget := by
  obtain ⟨names', hx⟩ := exists_expandIn m.restart.environment m.restart.names ht
  obtain ⟨hg, hcov⟩ := covers_expandIn hx
  refine ⟨{ m.restart with names := names' }, ?_, ⟨ht, hcov, hg.subscripts.trans hsub⟩, rfl⟩
  rw [expand, hx]

/-- A plain term that has a normal form, however it is reached, is evaluated to it without a budget
and with names that never run out, from some bound on. Subterms without a normal form do not stand
in the way of that. -/
theorem evaluate_complete (ht : t.Plain) (hsub : m.names.subscripts = true)
    (hb : m.budget = .unbounded) (hred : Reduces t.nameless w) (hw : w.Normal) :
    ∃ v bound, v.nameless = w ∧ ∀ k, (evaluate (bound + k) t m).outcome = .ok v := by
  obtain ⟨k, hs⟩ := hred.leftmostIn hw
  obtain ⟨m', hx, hready, hb'⟩ := exists_expand ht hsub
  rw [Term.nameless_eq_readIn] at hs
  obtain ⟨run, v, hrun, hv, hvw, -⟩ :=
    exists_runTo hs hw hready (hb'.trans hb) fun _ => trivial
  obtain ⟨bound, hbound⟩ := hrun.reduce_add
  refine ⟨v, bound, v.nameless_eq_readIn.trans hvw, fun k => ?_⟩
  rw [evaluate, hx]
  simp only [Run.outcome_cons, hbound k, hv]

/-- A term that throws `loop` away is evaluated, although `loop` cannot be. -/
theorem evaluate_loop_thrown_away :
    ∃ (t : Expr) (m : Evaluator Empty) (w : Nameless Empty), t = .app (.lam "x" (.var "y")) loop ∧
      (∀ u, Reduces (loop : Expr).nameless u → ¬ u.Normal) ∧
      t.Plain ∧ m.names.subscripts = true ∧ m.budget = .unbounded ∧ Reduces t.nameless w ∧
      w.Normal ∧ ∃ v bound, v.nameless = w ∧ ∀ k, (evaluate (bound + k) t m).outcome = .ok v := by
  let t : Expr := .app (.lam "x" (.var "y")) loop
  have hconst : (Term.lam "x" (.var "y") : Expr).Normal := trivial
  have ht : t.Plain := Term.plain_app hconst.plain plain_loop
  have hred : Reduces t.nameless (.free "y") := .single (.redex _ _)
  refine ⟨t, blank { subscripts := true }, .free "y", rfl, fun u => not_normal_of_loop, ht, rfl,
    rfl, hred, normal_free "y", ?_⟩
  exact evaluate_complete ht rfl rfl hred (normal_free "y")

end NormalOrder.Evaluator
