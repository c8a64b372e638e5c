import NormalOrder.Proofs.Evaluator.Alpha
import NormalOrder.Proofs.Term.Parentheses

/-!
# Evaluation does not see parentheses

Terms that are alike without their parentheses, and up to the places of their metavariables, have
the same evaluation: the same value or the same error, the same number of contractions, the same
names in use and the same environment (`evaluate_regrouped`). Expansion keeps parentheses,
substitution drops some of them and keeps others, and steps drop them where they come upon them; what
stays the same is the term without any. Each step of it is the step of the term itself
(`StepTo.dropGroups`), and the values that are stored and returned are normal, so they have none.
-/

namespace NormalOrder

variable {κ : Type}

/-- The step with the parentheses taken out of its terms. -/
def StepResult.dropGroups : StepResult κ → StepResult κ
  | normal v => normal v.dropGroups
  | contracted c t => contracted c.dropGroups t.dropGroups
  | failed e => failed e

namespace StepResult

variable {r : StepResult κ} {f g : Term κ → Term κ}

/-- Parentheses can be taken out below a constructor or of the whole. -/
theorem dropGroups_map (h : ∀ t, (f t).dropGroups = g t.dropGroups) :
    (r.map f).dropGroups = r.dropGroups.map g := by
  cases r with
  | normal v => exact congrArg normal (h v)
  | contracted c t => exact congrArg (contracted c.dropGroups) (h t)
  | failed => rfl

/-- A step that found a redex found one without parentheses, too. -/
theorem not_isNormal_dropGroups (h : ¬ r.IsNormal) : ¬ r.dropGroups.IsNormal := by
  cases r with
  | normal => exact absurd trivial h
  | contracted | failed => exact id

end StepResult

namespace Evaluator

variable {p : String} {b a s t : Term κ} {m m' : Evaluator κ} {r : StepResult κ}

/-! ## Reduction -/

/-- A contraction of terms without their parentheses is that of the terms. -/
theorem contractStep_dropGroups (h : contractStep p b a m = (r, m')) :
    contractStep p b.dropGroups a.dropGroups m = (r.dropGroups, m') := by
  have hs := Term.subst_dropGroups p a b m.names
  rw [contractStep, contract] at h ⊢
  cases hb : m.budget.refusal? (m.steps + 1) with
  | some e =>
    simp only [hb] at h ⊢
    cases h
    rfl
  | none =>
    simp only [hb, hs] at h ⊢
    cases hsub : Term.subst p a b m.names with
    | mk o names =>
      rw [hsub] at h
      cases o with
      | error | ok =>
        cases h
        rfl

variable [Shown κ]

/-- A term without its parentheses makes the step that the term makes. -/
theorem StepTo.dropGroups (h : StepTo t m r m') : StepTo t.dropGroups m r.dropGroups m' := by
  induction h with
  | var x m => exact .var x m
  | @lam p b m m' r _ ih =>
    rw [StepResult.dropGroups_map (g := .lam p) fun _ => rfl]
    exact .lam ih
  | group _ ih => exact ih
  | @store n t v m m' ht ih =>
    have hv : v.dropGroups = v := (ht.normal rfl).dropGroups_eq
    rw [StepResult.dropGroups, hv] at ih ⊢
    exact .store ih
  | @value n t m m' r hr _ ih =>
    rw [StepResult.dropGroups_map (g := .bind n) fun _ => rfl]
    exact .value (StepResult.not_isNormal_dropGroups hr) ih
  | @redex p f b a m m' r hf hc =>
    have hf' : f.dropGroups.ungroup = .lam p b.dropGroups := by
      rw [Term.ungroup_dropGroups, ← Term.dropGroups_ungroup, hf, Term.dropGroups]
    exact .redex hf' (contractStep_dropGroups hc)
  | @stored p f b a m m' m'' r hl hf hc ih =>
    have hlam : (Term.lam p b).Normal := hf.normal rfl
    have hb : b.dropGroups = b := Term.Normal.dropGroups_eq hlam
    have hc' := contractStep_dropGroups hc
    rw [StepResult.dropGroups, Term.dropGroups, hb] at ih
    rw [hb] at hc'
    refine .stored ?_ ih hc'
    rwa [Term.ungroup_dropGroups, Term.isLam_dropGroups]
  | @argument f v a m m' m'' r hl hf hv _ ihf iha =>
    have hvn : v.dropGroups = v := (hf.normal rfl).dropGroups_eq
    rw [StepResult.dropGroups, hvn] at ihf
    rw [StepResult.dropGroups_map (g := .app v) fun t => by rw [Term.dropGroups, hvn]]
    refine .argument ?_ ihf hv iha
    rwa [Term.ungroup_dropGroups, Term.isLam_dropGroups]
  | @function f a m m' r hl hr _ ih =>
    rw [StepResult.dropGroups_map (g := (.app · a.dropGroups)) fun _ => rfl]
    refine .function ?_ (StepResult.not_isNormal_dropGroups hr) ih
    rwa [Term.ungroup_dropGroups, Term.isLam_dropGroups]
  | metavar n l m => exact .metavar n l m
  | const c m => exact .const c m

/-- A term without its parentheses is reduced as the term is. -/
theorem reduce_dropGroups (bound : Nat) (t : Term κ) (m : Evaluator κ) :
    (reduce bound t.dropGroups m).outcome = (reduce bound t m).outcome ∧
      (reduce bound t.dropGroups m).state = (reduce bound t m).state := by
  induction bound generalizing t m with
  | zero => exact ⟨rfl, rfl⟩
  | succ bound ih =>
    have hstep := stepTo_step t m
    rw [reduce, reduce, hstep.dropGroups.step_eq]
    generalize step t m = out at hstep
    obtain ⟨r, m'⟩ := out
    cases r with
    | normal v =>
      have hv : v.dropGroups = v := (hstep.normal rfl).dropGroups_eq
      exact ⟨congrArg Except.ok hv, rfl⟩
    | contracted c u => exact ih u m'
    | failed e => exact ⟨rfl, rfl⟩

/-- Terms that are alike without their parentheses are reduced alike. -/
theorem reduce_regrouped (h : s.dropGroups = t.dropGroups) (bound : Nat) (m : Evaluator κ) :
    (reduce bound s m).outcome = (reduce bound t m).outcome ∧
      (reduce bound s m).state = (reduce bound t m).state := by
  obtain ⟨hs, hs'⟩ := reduce_dropGroups bound s m
  obtain ⟨ht, ht'⟩ := reduce_dropGroups bound t m
  rw [← hs, ← hs', ← ht, ← ht', h]
  exact ⟨rfl, rfl⟩

/-! ## Expansion -/

/-- Two expansions come to the same: to terms that are alike without their parentheses, or to errors
that differ at most in a place, and with the same names in use. -/
inductive ExpandedAlike : Except EvalError (Term κ) × NameSupply →
    Except EvalError (Term κ) × NameSupply → Prop where
  | ok {s t : Term κ} {names : NameSupply} (h : s.dropGroups = t.dropGroups) :
    ExpandedAlike (.ok s, names) (.ok t, names)
  | error {e e' : EvalError} {names : NameSupply} (h : e.unlocated = e'.unlocated) :
    ExpandedAlike (.error e, names) (.error e', names)

namespace ExpandedAlike

variable {x y : Except EvalError (Term κ)} {names names' : NameSupply} {f g : Term κ → Term κ}

omit [Shown κ] in
/-- Expansions that come to the same do so below constructors that are alike without parentheses. -/
theorem map (h : ExpandedAlike (x, names) (y, names'))
    (hfg : ∀ s t, s.dropGroups = t.dropGroups → (f s).dropGroups = (g t).dropGroups) :
    ExpandedAlike (x.map f, names) (y.map g, names') := by
  cases h with
  | ok h => exact .ok (hfg _ _ h)
  | error h => exact .error h

end ExpandedAlike

/-- A term is expanded as it is without its parentheses and the places of its metavariables. -/
theorem expandIn_dropGroups (env : OrderedMap String (Term κ)) (t : Term κ) (names : NameSupply) :
    ExpandedAlike (expandIn env t.dropGroups.unlocated names) (expandIn env t names) := by
  induction t generalizing names with
  | var x => exact .ok rfl
  | lam p b ih => exact (ih (names.use p)).map fun _ _ h => congrArg (Term.lam p) h
  | app f a ihf iha =>
    rw [Term.dropGroups, Term.unlocated, expandIn, expandIn]
    have hf := ihf names
    generalize expandIn env f.dropGroups.unlocated names = x at hf
    generalize expandIn env f names = y at hf
    cases hf with
    | error h => exact .error h
    | @ok f₁ f₂ names' h =>
      exact (iha names').map fun _ _ ha => congrArg₂ Term.app h ha
  | group t ih =>
    show ExpandedAlike (expandIn env t.dropGroups.unlocated names)
      ((expandIn env t names).1.map Term.group, (expandIn env t names).2)
    have ht := ih names
    generalize expandIn env t.dropGroups.unlocated names = x at ht
    generalize expandIn env t names = y at ht
    cases ht with
    | error h => exact .error h
    | ok h => exact .ok h
  | bind n t ih => exact (ih names).map fun _ _ h => congrArg (Term.bind n) h
  | metavar n l =>
    rw [Term.dropGroups, Term.unlocated, expandIn, expandIn]
    cases env.get? n with
    | none => exact .error rfl
    | some v => exact .ok rfl
  | const c => exact .error rfl

/-! ## Evaluation -/

/-- In every state, whatever its environment, its budget and its names: two terms that are alike
without their parentheses, whatever the places of their metavariables, come to the same value or to
errors that differ at most in such a place, and they leave the same state, with the same values
stored in the same order, the same names in use and the same count of contractions. They do so at
every bound, so one of them goes on for ever if the other does. -/
theorem evaluate_regrouped [DecidableEq κ] (h : s.dropGroups.same t.dropGroups = true)
    (bound : Nat) (m : Evaluator κ) :
    ((∃ v, (evaluate bound s m).outcome = .ok v ∧ (evaluate bound t m).outcome = .ok v) ∨
        ∃ e e', (evaluate bound s m).outcome = .error e ∧
          (evaluate bound t m).outcome = .error e' ∧ e.unlocated = e'.unlocated) ∧
      (evaluate bound s m).state = (evaluate bound t m).state := by
  have hs := expandIn_dropGroups m.restart.environment s m.restart.names
  have ht := expandIn_dropGroups m.restart.environment t m.restart.names
  rw [of_decide_eq_true h] at hs
  rw [evaluate, evaluate, expand, expand]
  generalize expandIn m.restart.environment t.dropGroups.unlocated m.restart.names = x at hs ht
  generalize expandIn m.restart.environment s m.restart.names = y at hs
  generalize expandIn m.restart.environment t m.restart.names = z at ht
  cases hs with
  | error hs =>
    cases ht with
    | error ht => exact ⟨.inr ⟨_, _, rfl, rfl, hs.symm.trans ht⟩, rfl⟩
  | @ok w u names hs =>
    cases ht with
    | ok ht =>
      obtain ⟨hout, hstate⟩ := reduce_regrouped (hs.symm.trans ht) bound { m.restart with names }
      refine ⟨?_, hstate⟩
      simp only [Run.outcome_cons, hout]
      generalize (reduce bound _ { m.restart with names }).outcome = out
      cases out with
      | ok v => exact .inl ⟨v, rfl, rfl⟩
      | error e => exact .inr ⟨e, e, rfl, rfl, rfl⟩

/-- With `k` stored under `X`, the parentheses around a shadowed body, an argument and a metavariable
make no difference to a binding that is applied: `(Y <- \x.(\x.(x)) X) ((y))` comes to `k` after two
contractions, as `(Y <- \x.(\x.x) (X)) y` does. -/
theorem evaluate_regrouped_shadowed :
    ∃ (m : Evaluator Empty) (s t : Expr),
      m = after { subscripts := true, budget := .atMost 2 } [.evaluate 1 (.bind "X" (.var "k"))] ∧
      Term.parse "(Y <- \\x.(\\x.(x)) X) ((y))" = .ok s ∧
      Term.parse "(Y <- \\x.(\\x.x) (X)) y" = .ok t ∧ s.dropGroups.same t.dropGroups = true ∧
      (evaluate 3 s m).outcome = .ok (.var "k") ∧ (evaluate 3 t m).outcome = .ok (.var "k") ∧
      (evaluate 3 t m).state = (evaluate 3 s m).state ∧ (evaluate 3 s m).state.steps = 2 := by
  let m : Evaluator Empty :=
    after { subscripts := true, budget := .atMost 2 } [.evaluate 1 (.bind "X" (.var "k"))]
  let s : Expr := .app (.group (.bind "Y" (.lam "x" (.app (.group (.lam "x" (.group (.var "x"))))
    (.metavar "X" (some ⟨1, 19⟩)))))) (.group (.group (.var "y")))
  let t : Expr := .app (.group (.bind "Y" (.lam "x" (.app (.group (.lam "x" (.var "x")))
    (.group (.metavar "X" (some ⟨1, 18⟩))))))) (.var "y")
  have hs : Term.parse "(Y <- \\x.(\\x.(x)) X) ((y))" = .ok s := by cbv
  have ht : Term.parse "(Y <- \\x.(\\x.x) (X)) y" = .ok t := by cbv
  have hst : s.dropGroups.same t.dropGroups = true := by decide
  have hv : (evaluate 3 s m).outcome = .ok (.var "k") := by cbv
  have hsteps : (evaluate 3 s m).state.steps = 2 := by cbv
  obtain ⟨hout, hstate⟩ := evaluate_regrouped hst 3 m
  refine ⟨m, s, t, rfl, hs, ht, hst, hv, ?_, hstate.symm, hsteps⟩
  rcases hout with ⟨v, hsv, htv⟩ | ⟨e, e', hse, -, -⟩
  · cases hv.symm.trans hsv
    exact htv
  · cases hv.symm.trans hse

end Evaluator

end NormalOrder
