import Mathlib
import NormalOrder.Proofs.Evaluator.BigStep.FromSteps
import NormalOrder.Proofs.Evaluator.Expansion
import NormalOrder.Proofs.Evaluator.Preservation

/-!
# Bindings persist

An evaluation stores values under names that its term binds, and it touches nothing else
(`evaluate_persists`). Substitution copies bindings and moves them under binders, but makes none with a
new name, and a value that is spliced in for a metavariable is normal, so it has none at all. That a term
does not bind a name is therefore a property that evaluation keeps (`kept_not_binds`), and what is put
into the environment has other names.

A binding that comes to a value stores this value last (`RunTo.stored_value`). As long as no term binds its
name again, the metavariable of this name comes to the value: it is normal, and a normal term is left
alone.
-/

namespace NormalOrder

variable {κ : Type}

/-! ## Maps that values are put into -/

namespace OrderedMap

variable {env : OrderedMap String (Term κ)} {n : String} {v : Term κ} {es : List (String × Term κ)}

/-- The keys of a map come first in the map that a value is put into, in their order. -/
theorem keys_prefix_put (env : OrderedMap String (Term κ)) (n : String) (v : Term κ) :
    env.keys <+: (env.put n v).keys := by
  by_cases h : n ∈ env.keys
  · exact ⟨[], by rw [List.append_nil, keys_put_of_mem h]⟩
  · rw [keys_put_of_not_mem h]
    exact List.prefix_append ..

/-- The keys of a map come first in the map that values are put into, in their order. -/
theorem keys_prefix_putAll (env : OrderedMap String (Term κ)) (es : List (String × Term κ)) :
    env.keys <+: (env.putAll es).keys := by
  induction es generalizing env with
  | nil => exact List.prefix_rfl
  | cons e es ih => exact (keys_prefix_put env e.1 e.2).trans (ih (env.put e.1 e.2))

/-- A name keeps its value when values are put in under other names. -/
theorem get?_putAll_of_ne (h : ∀ e ∈ es, e.1 ≠ n) : (env.putAll es).get? n = env.get? n := by
  induction es generalizing env with
  | nil => rfl
  | cons e es ih =>
    obtain ⟨he, hes⟩ := List.forall_mem_cons.1 h
    have hrest : ((env.put e.1 e.2).putAll es).get? n = (env.put e.1 e.2).get? n := ih hes
    rw [get?_put, if_neg he] at hrest
    exact hrest

end OrderedMap

/-! ## Names that terms bind -/

namespace Term

variable {n p q x : String} {s t t' r : Term κ} {names names' : NameSupply}

/-- Renaming a variable changes no binding. -/
theorem boundNames_rename (h : t.rename p q = .ok t') : t'.boundNames = t.boundNames := by
  replace h := renameTo_of_rename h
  induction h with
  | found | other | shadowed | const => rfl
  | lam _ _ ih | group _ ih | bind _ ih => rw [boundNames, boundNames, ih]
  | app _ _ ihf iha => rw [boundNames, boundNames, ihf, iha]

/-- What a substitution makes of two terms that do not bind a name does not bind it. -/
theorem SubstTo.not_binds (h : SubstTo x s t names r names') (ht : n ∉ t.boundNames)
    (hs : n ∉ s.boundNames) : n ∉ r.boundNames := by
  induction h with
  | found => exact hs
  | other | shadowed | const => exact ht
  | unused _ _ _ ih => exact ih ht
  | renamed _ _ _ hr _ ih =>
    refine ih ?_
    rw [boundNames_rename hr]
    exact ht
  | app _ _ ihf iha =>
    rw [boundNames, List.mem_append, not_or] at ht ⊢
    exact ⟨ihf ht.1, iha ht.2⟩
  | group _ ih => exact ih ht
  | bind _ ih =>
    rw [boundNames, List.mem_cons, not_or] at ht ⊢
    exact ⟨ht.1, ih ht.2⟩

/-- A normal term binds no name. -/
theorem Normal.boundNames_eq (h : t.Normal) : t.boundNames = [] := by
  induction t with
  | var => rfl
  | lam p b ih => exact ih h
  | app f a ihf iha => rw [boundNames, ihf h.2.1, iha h.2.2, List.append_nil]
  | group | bind | metavar | const => exact h.elim

end Term

namespace Evaluator

/-- That a term does not bind a name is a property that evaluation keeps. -/
theorem kept_not_binds (n : String) : Kept fun t : Term κ => n ∉ t.boundNames where
  body h := h
  lam _ h := h
  inner h := h
  group _ h := h
  value h := (List.ne_and_not_mem_of_not_mem_cons h).2
  bind h h' := List.not_mem_cons_of_ne_of_not_mem (List.ne_and_not_mem_of_not_mem_cons h).1 h'
  app {f a} := by rw [Term.boundNames, List.mem_append, not_or]
  subst h ht hs := h.not_binds ht hs

variable [Shown κ] {n : String} {t v : Term κ} {m : Evaluator κ} {bound : Nat}

/-! ## What evaluations leave as it is -/

/-- Every call leaves the names of the environment in their order, before any new ones. -/
theorem keys_prefix_run (c : Call κ) (m : Evaluator κ) :
    m.environment.keys <+: (c.run m).2.environment.keys := by
  rw [environment_run]
  exact OrderedMap.keys_prefix_putAll _ _

/-- Where the environment holds normal terms, an evaluation leaves the value of every name that its term
does not bind. -/
theorem get?_evaluate (henv : m.environment.HoldsNormal) (hn : n ∉ t.boundNames) (bound : Nat) :
    (evaluate bound t m).state.environment.get? n = m.environment.get? n := by
  have hvalues : ∀ k v, m.environment.get? k = some v → n ∉ v.boundNames := by
    intro k v hv
    rw [(henv k v hv).boundNames_eq]
    exact List.not_mem_nil
  have hstored := kept_stored_evaluate (kept_not_binds n) hvalues hn bound
  have hrun : (evaluate bound t m).state.environment
      = m.environment.putAll (Call.stored (.evaluate bound t) m) :=
    environment_run (.evaluate bound t) m
  rw [hrun]
  refine OrderedMap.get?_putAll_of_ne fun e he hne => hstored e he ?_
  rw [hne]
  exact List.mem_cons_self

/-- One more call begins in the state that the calls before it have left. -/
theorem after_concat (o : Options) (calls : List (Call κ)) (c : Call κ) :
    after o (calls ++ [c]) = (c.run (after o calls)).2 := by
  rw [after, List.foldl_append]
  rfl

/-- Further evaluations, whatever they come to, leave the value of every name that none of their terms
binds. -/
theorem get?_after_append (o : Options) (calls : List (Call κ)) {ts : List (Nat × Term κ)}
    (hts : ∀ t ∈ ts, n ∉ t.2.boundNames) :
    (after o (calls ++ ts.map fun t => .evaluate t.1 t.2)).environment.get? n
      = (after o calls).environment.get? n := by
  induction ts generalizing calls with
  | nil => rw [List.map_nil, List.append_nil]
  | cons t ts ih =>
    obtain ⟨ht, hts⟩ := List.forall_mem_cons.1 hts
    rw [List.map_cons, List.append_cons, ih _ hts, after_concat]
    exact get?_evaluate (holdsNormal_after o calls) ht t.1

/-! ## What bindings store -/

/-- A run of a binding that comes to a value leaves the value under the name. -/
theorem RunTo.stored_value {run : Run κ} (h : RunTo (.bind n t) m run) (hv : run.outcome = .ok v) :
    run.state.environment.get? n = some v := by
  cases h.evaluates with
  | @bind _ _ _ _ r ht =>
    have hr : r.outcome = .ok v := hv
    rw [Run.storing, hr]
    exact (OrderedMap.get?_put ..).trans (if_pos rfl)

/-- An evaluation of a binding that comes to a value leaves the value under the name. -/
theorem get?_evaluate_bind (h : (evaluate bound (.bind n t) m).outcome = .ok v) :
    (evaluate bound (.bind n t) m).state.environment.get? n = some v := by
  rw [evaluate, expand, expandIn] at h ⊢
  generalize expandIn m.restart.environment t m.restart.names = x at h
  obtain ⟨o, names⟩ := x
  cases o with
  | error e => cases h
  | ok t' =>
    have hrun := runTo_of_outcome (t := .bind n t') h
    exact hrun.stored_value h

/-- A metavariable comes to its value, if this is normal, in one step and without a contraction. The
environment is left as it is. -/
theorem evaluate_metavar (hget : m.environment.get? n = some v) (hv : v.Normal)
    (l : Option Location) (k : Nat) :
    (evaluate (k + 1) (.metavar n l) m).outcome = .ok v ∧
      (evaluate (k + 1) (.metavar n l) m).state.steps = 0 ∧
      (evaluate (k + 1) (.metavar n l) m).state.environment = m.environment := by
  have hx : expand (.metavar n l) m.restart
      = (.ok v, { m.restart with names := m.restart.names.useAll v.names }) := by
    rw [expand, expandIn, show m.restart.environment.get? n = some v from hget]
  rw [evaluate, hx]
  simp only [reduce, (stepTo_normal hv _).step_eq]
  exact ⟨rfl, rfl, rfl⟩

/-- After every series of calls, whatever they came to. An evaluation, whatever it comes to, leaves every
name of the environment, in the order that they had, and the value of every name that its term does not
bind. If it is that of a binding and comes to a value, then the metavariable of the name comes to the same
value after any further evaluations, whatever they come to, of terms that do not bind the name: it does so
at every bound but zero, without a contraction, and leaves the environment as it is. -/
theorem evaluate_persists (o : Options) (calls : List (Call κ)) (bound : Nat) :
    (∀ t, (after o calls).environment.keys
        <+: (evaluate bound t (after o calls)).state.environment.keys ∧
      ∀ n, n ∉ t.boundNames →
        (evaluate bound t (after o calls)).state.environment.get? n
          = (after o calls).environment.get? n) ∧
    ∀ n e v, (evaluate bound (.bind n e) (after o calls)).outcome = .ok v →
      ∀ ts : List (Nat × Term κ), (∀ t ∈ ts, n ∉ t.2.boundNames) → ∀ m,
        m = after o (calls ++ .evaluate bound (.bind n e) :: ts.map fun t => .evaluate t.1 t.2) →
        ∀ l k, (evaluate (k + 1) (.metavar n l) m).outcome = .ok v ∧
          (evaluate (k + 1) (.metavar n l) m).state.steps = 0 ∧
          (evaluate (k + 1) (.metavar n l) m).state.environment = m.environment := by
  refine ⟨fun t => ⟨keys_prefix_run (.evaluate bound t) _, fun n hn =>
    get?_evaluate (holdsNormal_after o calls) hn bound⟩, ?_⟩
  rintro n e v hv ts hts m rfl l k
  have hget : (after o (calls ++ [.evaluate bound (.bind n e)])).environment.get? n = some v := by
    rw [after_concat]
    exact get?_evaluate_bind hv
  rw [List.append_cons]
  rw [← get?_after_append o _ hts] at hget
  exact evaluate_metavar hget (normal_evaluate hv) l k

/-- `N <- (\x.x) y` stores `y` in the place of an older value. Neither an evaluation that fails, because
`Q` has no value, nor one that stores under the name `M` changes what `N` comes to. -/
theorem evaluate_persists_overwritten :
    ∃ (again fails other : Expr) (m : Evaluator Empty),
      Term.parse "N <- (\\x.x) y" = .ok again ∧ "M" ∉ again.boundNames ∧
      (evaluate 3 again (after {} [.evaluate 3 (.bind "N" (.var "z")),
        .evaluate 3 (.bind "M" (.var "w"))])).outcome = .ok (.var "y") ∧
      (evaluate 3 again (after {} [.evaluate 3 (.bind "N" (.var "z")),
        .evaluate 3 (.bind "M" (.var "w"))])).state.environment.get? "M" = some (.var "w") ∧
      (∀ t ∈ [fails, other], "N" ∉ t.boundNames) ∧
      m = after {} [.evaluate 3 (.bind "N" (.var "z")), .evaluate 3 (.bind "M" (.var "w")),
        .evaluate 3 again, .evaluate 3 fails, .evaluate 3 other] ∧
      m.environment.keys = ["N", "M"] ∧
      (evaluate 1 (.metavar "N" none) m).outcome = .ok (.var "y") ∧
      (evaluate 1 (.metavar "N" none) m).state.steps = 0 := by
  let again : Expr := .bind "N" (.app (.group (.lam "x" (.var "x"))) (.var "y"))
  let fails : Expr := .app (.group (.bind "M" (.var "y"))) (.metavar "Q" none)
  let other : Expr := .bind "M" (.app (.metavar "N" none) (.metavar "N" none))
  let calls : List (Call Empty) :=
    [.evaluate 3 (.bind "N" (.var "z")), .evaluate 3 (.bind "M" (.var "w"))]
  obtain ⟨m, hm⟩ : ∃ m, m = after {} (calls ++ [.evaluate 3 again, .evaluate 3 fails,
    .evaluate 3 other]) := ⟨_, rfl⟩
  have hv : (evaluate 3 again (after {} calls)).outcome = .ok (.var "y") := by cbv
  have hM : "M" ∉ again.boundNames := by decide
  have hN : ∀ t ∈ [(3, fails), (3, other)], "N" ∉ t.2.boundNames := by decide
  have hkeys : m.environment.keys = ["N", "M"] := by
    rw [hm]
    cbv
  obtain ⟨hframe, hpersists⟩ := evaluate_persists {} calls 3
  obtain ⟨hvalue, hsteps, -⟩ := hpersists "N" _ _ hv _ hN m hm none 0
  have hafter : (evaluate 3 again (after {} calls)).state.environment.get? "M" = some (.var "w") := by
    rw [(hframe again).2 "M" hM]
    cbv
  exact ⟨again, fails, other, m, by cbv, hM, hv, hafter, by decide, hm, hkeys, hvalue, hsteps⟩

end Evaluator

end NormalOrder
