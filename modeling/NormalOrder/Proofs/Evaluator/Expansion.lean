import NormalOrder.Proofs.Evaluator.History

/-!
# Expansion goes on in the values

A value that is put in place of a metavariable is itself expanded (`Expands`). Nothing stands in the
way of going on for ever there but what an environment may hold: if a value referred to its own name,
expansion would not come to an end. An environment that holds normal terms has no value that refers to
any name, so expansion leaves every value as it is and only marks its names, and it comes to an end
with what `expandIn` gives (`expands_iff`).
-/

namespace NormalOrder

variable {κ : Type}

/-- Marking the names of one list and then those of another. -/
theorem NameSupply.useAll_append (s : NameSupply) (xs ys : List String) :
    s.useAll (xs ++ ys) = (s.useAll xs).useAll ys :=
  List.foldl_append ..

namespace Evaluator

variable [Shown κ] {env : OrderedMap String (Term κ)} {t v : Term κ} {names names' : NameSupply}
  {r : Except EvalError (Term κ)}

/-- Expansion of a term and of the values put into it comes to a result. The supplies are those before
and after. -/
inductive Expands (env : OrderedMap String (Term κ)) :
    Term κ → NameSupply → Except EvalError (Term κ) → NameSupply → Prop where
  | var (x : String) (names : NameSupply) : Expands env (.var x) names (.ok (.var x)) (names.use x)
  | lam {p : String} {b : Term κ} {names names' : NameSupply} {r : Except EvalError (Term κ)}
      (hb : Expands env b (names.use p) r names') :
    Expands env (.lam p b) names (r.map (.lam p)) names'
  | app {f f' a : Term κ} {names names' names'' : NameSupply} {r : Except EvalError (Term κ)}
      (hf : Expands env f names (.ok f') names') (ha : Expands env a names' r names'') :
    Expands env (.app f a) names (r.map (.app f')) names''
  | failed {f a : Term κ} {names names' : NameSupply} {e : EvalError}
      (hf : Expands env f names (.error e) names') :
    Expands env (.app f a) names (.error e) names'
  | group {t : Term κ} {names names' : NameSupply} {r : Except EvalError (Term κ)}
      (ht : Expands env t names r names') :
    Expands env (.group t) names (r.map .group) names'
  | bind {n : String} {t : Term κ} {names names' : NameSupply} {r : Except EvalError (Term κ)}
      (ht : Expands env t names r names') :
    Expands env (.bind n t) names (r.map (.bind n)) names'
  | value {n : String} {l : Option Location} {v : Term κ} {names names' : NameSupply}
      {r : Except EvalError (Term κ)} (hv : env.get? n = some v)
      (h : Expands env v names r names') :
    Expands env (.metavar n l) names r names'
  | unbound {n : String} (l : Option Location) (names : NameSupply) (hn : env.get? n = none) :
    Expands env (.metavar n l) names (.error (.unbound n l)) names
  | const (c : κ) (names : NameSupply) :
    Expands env (.const c) names (.error (.violation (.notExpression (Shown.shown c) .expand))) names

/-- Expansion leaves a term without metavariables as it is and marks its names. -/
theorem expandIn_expanded (hm : t.Lacks .metavariable) (hc : t.Lacks .constant)
    (names : NameSupply) : expandIn env t names = (.ok t, names.useAll t.names) := by
  induction t generalizing names with
  | var x => rfl
  | lam p b ih =>
    rw [expandIn, ih (Term.lacks_lam.1 hm) (Term.lacks_lam.1 hc)]
    rfl
  | app f a ihf iha =>
    rw [expandIn, ihf hm.1 hc.1]
    simp only [iha hm.2 hc.2, Term.names, NameSupply.useAll_append]
    rfl
  | group t ih | bind n t ih =>
    rw [expandIn, ih hm.2 hc.2]
    rfl
  | metavar => exact absurd rfl hm
  | const => exact absurd rfl hc

/-- Expansion leaves a normal term as it is and marks its names. -/
theorem expandIn_normal (h : v.Normal) (names : NameSupply) :
    expandIn env v names = (.ok v, names.useAll v.names) :=
  expandIn_expanded (h.lacks _) (h.lacks _) names

/-- The expansion of a normal term comes to an end, in every environment. -/
theorem expands_normal (env : OrderedMap String (Term κ)) (h : v.Normal) (names : NameSupply) :
    Expands env v names (.ok v) (names.useAll v.names) := by
  induction v generalizing names with
  | var x => exact .var x names
  | lam p b ih => exact .lam (ih h (names.use p))
  | app f a ihf iha =>
    rw [Term.names, NameSupply.useAll_append]
    exact .app (ihf h.2.1 names) (iha h.2.2 _)
  | group | bind | metavar | const => exact h.elim

/-- Where the environment holds normal terms, every expansion comes to an end. -/
theorem expands_expandIn (henv : env.HoldsNormal) (t : Term κ) (names : NameSupply) :
    Expands env t names (expandIn env t names).1 (expandIn env t names).2 := by
  induction t generalizing names with
  | var x => exact .var x names
  | lam p b ih => exact .lam (ih (names.use p))
  | app f a ihf iha =>
    have hf := ihf names
    rw [expandIn]
    generalize expandIn env f names = out at hf
    obtain ⟨o, names'⟩ := out
    cases o with
    | error e => exact .failed hf
    | ok f' => exact .app hf (iha names')
  | group t ih => exact .group (ih names)
  | bind n t ih => exact .bind (ih names)
  | metavar n l =>
    rw [expandIn]
    cases hv : env.get? n with
    | none => exact .unbound l names hv
    | some v => exact .value hv (expands_normal env (henv n v hv) names)
  | const c => exact .const c names

/-- Where the environment holds normal terms, an expansion that comes to an end gives what `expandIn`
gives. -/
theorem Expands.expandIn_eq (henv : env.HoldsNormal) (h : Expands env t names r names') :
    expandIn env t names = (r, names') := by
  induction h with
  | var | const => rfl
  | lam _ ih | group _ ih | bind _ ih => rw [expandIn, ih]
  | app _ _ ihf iha =>
    rw [expandIn, ihf]
    simp only [iha]
  | failed _ ih => rw [expandIn, ih]
  | @value n l v names names' r hv _ ih =>
    rw [expandIn, hv]
    exact (expandIn_normal (henv n v hv) names).symm.trans ih
  | unbound l names hn => rw [expandIn, hn]

/-- Where the environment holds normal terms, expansion comes to an end with one result, that of
`expandIn`. -/
theorem expands_iff (henv : env.HoldsNormal) :
    Expands env t names r names' ↔ expandIn env t names = (r, names') := by
  refine ⟨Expands.expandIn_eq henv, fun h => ?_⟩
  have hx := expands_expandIn henv t names
  rwa [h] at hx

end Evaluator

end NormalOrder
