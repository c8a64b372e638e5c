import Mathlib
import NormalOrder.Proofs.Evaluator.Expansion
import NormalOrder.Proofs.Evaluator.Outcome

/-!
# Metavariables without values

An evaluation finds a metavariable without a value exactly if its term has one, and it blames the first
from left to right (`evaluate_unbound`). Nothing is stored before the whole term is expanded, so a binding
gives no value to a metavariable of its own term, and an evaluation that fails here leaves the environment
as it was. Reduction never fails so: the environment holds no metavariables, and an expanded term has none
(`reduce_ne_unbound`).
-/

namespace NormalOrder

variable {κ : Type}

/-- `t` itself is a metavariable that has no value in `env`. -/
def Term.isUnboundIn (env : OrderedMap String (Term κ)) : Term κ → Bool
  | .metavar n _ => !env.contains n
  | .var _ | .lam _ _ | .app _ _ | .group _ | .bind _ _ | .const _ => false

/-- Nothing but a metavariable whose name the environment does not contain lacks a value. -/
theorem Term.isUnboundIn_iff {env : OrderedMap String (Term κ)} {t : Term κ} :
    t.isUnboundIn env = true ↔ ∃ n l, t = .metavar n l ∧ env.contains n = false := by
  cases t with
  | metavar n l =>
    rw [isUnboundIn, Bool.not_eq_true']
    refine ⟨fun hn => ⟨n, l, rfl, hn⟩, ?_⟩
    rintro ⟨_, _, ht, hn⟩
    cases ht
    exact hn
  | var | lam | app | group | bind | const => simp [isUnboundIn]

/-- A metavariable is its only subterm, so it is the first without a value if it has none. -/
theorem Term.find?_subterms_metavar {env : OrderedMap String (Term κ)} (n : String)
    (l : Option Location) :
    (metavar n l : Term κ).subterms.find? (·.isUnboundIn env)
      = if env.contains n then none else some (.metavar n l) := by
  have hparts : (metavar n l : Term κ).subterms = [.metavar n l] := rfl
  rw [hparts, List.find?_singleton, isUnboundIn]
  cases env.contains n <;> rfl

namespace Evaluator

variable [Shown κ] {env : OrderedMap String (Term κ)} {t : Term κ} {n : String}
  {l : Option Location} {m : Evaluator κ} {bound : Nat}

/-! ## Expansion -/

/-- Expansion gives a term if every metavariable has a value. -/
theorem expandIn_of_find?_eq_none (ht : t.Lacks .constant)
    (h : t.subterms.find? (·.isUnboundIn env) = none) (names : NameSupply) :
    ∃ t' names', expandIn env t names = (.ok t', names') := by
  induction t generalizing names with
  | var x => exact ⟨_, _, rfl⟩
  | lam p b ih =>
    obtain ⟨b', names', hb⟩ := ih ht h (names.use p)
    exact ⟨.lam p b', names', by rw [expandIn, hb]; rfl⟩
  | app f a ihf iha =>
    have hor : (f.subterms ++ a.subterms).find? (·.isUnboundIn env) = none := h
    rw [List.find?_append, Option.or_eq_none_iff] at hor
    obtain ⟨f', names₁, hf⟩ := ihf ht.1 hor.1 names
    obtain ⟨a', names₂, ha⟩ := iha ht.2 hor.2 names₁
    refine ⟨.app f' a', names₂, ?_⟩
    rw [expandIn, hf]
    simp only [ha]
    rfl
  | group t ih =>
    obtain ⟨t', names', ht'⟩ := ih ht.2 h names
    exact ⟨.group t', names', by rw [expandIn, ht']; rfl⟩
  | bind k t ih =>
    obtain ⟨t', names', ht'⟩ := ih ht.2 h names
    exact ⟨.bind k t', names', by rw [expandIn, ht']; rfl⟩
  | metavar k l =>
    rw [Term.find?_subterms_metavar, OrderedMap.contains] at h
    rw [expandIn]
    cases hk : env.get? k with
    | some v => exact ⟨v, _, rfl⟩
    | none =>
      rw [hk] at h
      cases h
  | const => exact absurd rfl ht

/-- Expansion fails at the first metavariable without a value. -/
theorem expandIn_of_find?_eq_some (ht : t.Lacks .constant)
    (h : t.subterms.find? (·.isUnboundIn env) = some (.metavar n l)) (names : NameSupply) :
    ∃ names', expandIn env t names = (.error (.unbound n l), names') := by
  induction t generalizing names with
  | var => cases h
  | lam p b ih =>
    obtain ⟨names', hb⟩ := ih ht h (names.use p)
    exact ⟨names', by rw [expandIn, hb]; rfl⟩
  | app f a ihf iha =>
    have hor : (f.subterms ++ a.subterms).find? (·.isUnboundIn env) = some (.metavar n l) := h
    rw [List.find?_append, Option.or_eq_some_iff] at hor
    rcases hor with hfirst | ⟨hnone, hfirst⟩
    · obtain ⟨names', hf⟩ := ihf ht.1 hfirst names
      exact ⟨names', by rw [expandIn, hf]⟩
    · obtain ⟨f', names₁, hf⟩ := expandIn_of_find?_eq_none ht.1 hnone names
      obtain ⟨names₂, ha⟩ := iha ht.2 hfirst names₁
      refine ⟨names₂, ?_⟩
      rw [expandIn, hf]
      simp only [ha]
      rfl
  | group t ih | bind k t ih =>
    obtain ⟨names', ht'⟩ := ih ht.2 h names
    exact ⟨names', by rw [expandIn, ht']; rfl⟩
  | metavar k l' =>
    rw [Term.find?_subterms_metavar, OrderedMap.contains] at h
    rw [expandIn]
    cases hk : env.get? k with
    | some v =>
      rw [hk] at h
      cases h
    | none =>
      rw [hk] at h
      cases h
      exact ⟨names, rfl⟩
  | const => exact absurd rfl ht

/-- Expansion finds a metavariable without a value exactly if it is the first of the term. -/
theorem expandIn_eq_unbound_iff (ht : t.Lacks .constant) (names : NameSupply) :
    (expandIn env t names).1 = .error (.unbound n l) ↔
      t.subterms.find? (·.isUnboundIn env) = some (.metavar n l) := by
  refine ⟨fun h => ?_, fun h => ?_⟩
  · cases hfirst : t.subterms.find? (·.isUnboundIn env) with
    | none =>
      obtain ⟨t', names', hx⟩ := expandIn_of_find?_eq_none ht hfirst names
      rw [hx] at h
      cases h
    | some u =>
      obtain ⟨k, l', rfl, -⟩ := Term.isUnboundIn_iff.1 (List.find?_some hfirst)
      obtain ⟨names', hx⟩ := expandIn_of_find?_eq_some ht hfirst names
      rw [hx] at h
      cases h
      rfl
  · obtain ⟨names', hx⟩ := expandIn_of_find?_eq_some ht h names
    rw [hx]

/-! ## Evaluation -/

/-- A reduction of an expanded term never finds a metavariable without a value. -/
theorem reduce_ne_unbound (ht : t.Expanded) (bound : Nat) (m : Evaluator κ) :
    (reduce bound t m).outcome ≠ .error (.unbound n l) := by
  intro he
  have hfin : (reduce bound t m).outcome ≠ .error .unfinished := by
    rw [he]
    nofun
  rcases (runTo_reduce hfin).stops ht he with hrefused | ⟨⟨k, hk⟩, -⟩
  · rcases refusal?_eq_some hrefused with ⟨_, -, hk⟩ | ⟨-, hk⟩ <;> cases hk
  · cases hk

/-- Where the environment holds normal terms, an evaluation finds a metavariable without a value exactly
if this is the first of the term. -/
theorem evaluate_eq_unbound_iff (henv : m.environment.HoldsNormal) (ht : t.Lacks .constant) :
    (evaluate bound t m).outcome = .error (.unbound n l) ↔
      t.subterms.find? (·.isUnboundIn m.environment) = some (.metavar n l) := by
  refine Iff.trans ?_ (expandIn_eq_unbound_iff ht m.restart.names)
  rw [evaluate, expand]
  generalize hx : expandIn m.restart.environment t m.restart.names = x
  have hx' : expandIn m.environment t m.restart.names = x := hx
  rw [hx']
  obtain ⟨o, names⟩ := x
  cases o with
  | error e => exact Iff.rfl
  | ok t' =>
    refine iff_of_false ?_ (by simp)
    exact reduce_ne_unbound (expanded_expandIn henv hx') bound _

/-- An evaluation that finds a metavariable without a value traces nothing, counts nothing and leaves the
environment as it is. -/
theorem evaluate_of_unbound (henv : m.environment.HoldsNormal) (ht : t.Lacks .constant)
    (h : (evaluate bound t m).outcome = .error (.unbound n l)) :
    (evaluate bound t m).trace = [] ∧ (evaluate bound t m).state.steps = 0 ∧
      (evaluate bound t m).state.environment = m.environment := by
  have hfirst := (evaluate_eq_unbound_iff henv ht).1 h
  obtain ⟨names', hx⟩ := expandIn_of_find?_eq_some ht hfirst m.restart.names
  have hx' : expandIn m.restart.environment t m.restart.names
      = (.error (.unbound n l), names') := hx
  rw [evaluate, expand, hx']
  exact ⟨rfl, rfl, rfl⟩

/-- After every series of calls, whatever they came to. An evaluation comes upon a metavariable without a
value exactly if one of its term has a name that the environment does not contain as the evaluation
begins. It blames the first of them then, from left to right. So does an expansion that goes on in the
values. Nothing is traced and no contraction is counted, and the environment is as it was, whatever the
term binds. -/
theorem evaluate_unbound (o : Options) (calls : List (Call Empty)) (bound : Nat) (t : Expr) :
    ((∃ n l, (evaluate bound t (after o calls)).outcome = .error (.unbound n l)) ↔
      ∃ n l, .metavar n l ∈ t.subterms ∧ (after o calls).environment.contains n = false) ∧
    ∀ n l, (evaluate bound t (after o calls)).outcome = .error (.unbound n l) →
      t.subterms.find? (·.isUnboundIn (after o calls).environment) = some (.metavar n l) ∧
      (∃ names, Expands (after o calls).environment t (after o calls).restart.names
        (.error (.unbound n l)) names) ∧
      (evaluate bound t (after o calls)).trace = [] ∧
      (evaluate bound t (after o calls)).state.steps = 0 ∧
      (evaluate bound t (after o calls)).state.environment = (after o calls).environment := by
  have henv := holdsNormal_after o calls
  have hiff : ∀ n l, (evaluate bound t (after o calls)).outcome = .error (.unbound n l) ↔
      t.subterms.find? (·.isUnboundIn (after o calls).environment) = some (.metavar n l) :=
    fun n l => evaluate_eq_unbound_iff henv t.lacks_constant
  refine ⟨⟨?_, ?_⟩, fun n l h => ?_⟩
  · rintro ⟨n, l, h⟩
    have hfirst := (hiff n l).1 h
    obtain ⟨_, _, hu, hn⟩ := Term.isUnboundIn_iff.1 (List.find?_some hfirst)
    cases hu
    exact ⟨n, l, List.mem_of_find?_eq_some hfirst, hn⟩
  · rintro ⟨n, l, hmem, hn⟩
    have hsome := List.find?_isSome.2 ⟨_, hmem, Term.isUnboundIn_iff.2 ⟨n, l, rfl, hn⟩⟩
    obtain ⟨u, hfirst⟩ := Option.isSome_iff_exists.1 hsome
    obtain ⟨k, l', rfl, -⟩ := Term.isUnboundIn_iff.1 (List.find?_some hfirst)
    exact ⟨k, l', (hiff k l').2 hfirst⟩
  · have hfirst := (hiff n l).1 h
    obtain ⟨names', hx⟩ := expandIn_of_find?_eq_some t.lacks_constant hfirst
      (after o calls).restart.names
    exact ⟨hfirst, ⟨names', (expands_iff henv).2 hx⟩, evaluate_of_unbound henv t.lacks_constant h⟩

/-- In `A (X <- y) (\z.X Q)` neither `X` nor `Q` has a value. The evaluation blames the `X` on the right,
also after it is bound on the left, and does not store `y`. -/
theorem evaluate_unbound_bound :
    ∃ (t : Expr) (m : Evaluator Empty), Term.parse "A (X <- y) (\\z.X Q)" = .ok t ∧
      "X" ∈ t.boundNames ∧ m = after {} [.evaluate 3 (.bind "A" (.var "w"))] ∧
      (evaluate 3 t m).outcome = .error (.unbound "X" (some ⟨1, 16⟩)) ∧
      t.subterms.find? (·.isUnboundIn m.environment) = some (.metavar "X" (some ⟨1, 16⟩)) ∧
      (evaluate 3 t m).state.environment = m.environment := by
  let t : Expr := .app (.app (.metavar "A" (some ⟨1, 1⟩)) (.group (.bind "X" (.var "y"))))
    (.group (.lam "z" (.app (.metavar "X" (some ⟨1, 16⟩)) (.metavar "Q" (some ⟨1, 18⟩)))))
  let calls : List (Call Empty) := [.evaluate 3 (.bind "A" (.var "w"))]
  have he : (evaluate 3 t (after {} calls)).outcome = .error (.unbound "X" (some ⟨1, 16⟩)) := by cbv
  obtain ⟨-, hblame⟩ := evaluate_unbound {} calls 3 t
  obtain ⟨hfirst, -, -, -, henv⟩ := hblame _ _ he
  exact ⟨t, after {} calls, by cbv, by decide, rfl, he, hfirst, henv⟩

end Evaluator

end NormalOrder
