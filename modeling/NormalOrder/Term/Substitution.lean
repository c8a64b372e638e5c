import NormalOrder.Names
import NormalOrder.Term.Alpha

/-!
# Capture-avoiding substitution

`subst x s t` puts the term `s` for the free occurrences of `x` in `t`. On the way through a
binder whose body holds `x` the binder gets a fresh name, whether or not its own name would have
captured anything; a binder without `x` below it keeps its name, and a binder of `x` itself is
left as it is. Parentheses outside such a binder are dropped. The supply of names is returned also
when substitution fails, with every name that was drawn until then.

Renaming keeps the size of a term (`size_rename`), so the recursion through a renamed body ends.
-/

namespace NormalOrder.Term

variable {κ : Type}

/-- The number of nodes of a term. -/
def size : Term κ → Nat
  | lam _ b => b.size + 1
  | app f a => f.size + a.size + 1
  | group t => t.size + 1
  | bind _ t => t.size + 1
  | var _ | metavar _ _ | const _ => 1

/-- Renaming keeps the size of a term. -/
theorem size_rename {x y : String} {t t' : Term κ} (h : t.rename x y = .ok t') :
    t'.size = t.size := by
  induction t generalizing t' with
  | var z =>
    simp only [rename, Except.ok.injEq] at h
    subst h
    split <;> rfl
  | lam p b ih =>
    simp only [rename] at h
    split at h
    · cases h; rfl
    · cases hb : b.rename x y with
      | error v => simp [hb, Except.map] at h
      | ok b' =>
        simp only [hb, Except.map, Except.ok.injEq] at h
        subst h
        simp [size, ih hb]
  | app f a ihf iha =>
    simp only [rename] at h
    cases hf : f.rename x y with
    | error v => simp [hf] at h
    | ok f' =>
      cases ha : a.rename x y with
      | error v => simp [hf, ha, Except.map] at h
      | ok a' =>
        simp only [hf, ha, Except.map, Except.ok.injEq] at h
        subst h
        simp [size, ihf hf, iha ha]
  | group t ih =>
    cases ht : t.rename x y with
    | error v => simp [rename, ht, Except.map] at h
    | ok t' =>
      simp only [rename, ht, Except.map, Except.ok.injEq] at h
      subst h
      simp [size, ih ht]
  | bind n t ih =>
    cases ht : t.rename x y with
    | error v => simp [rename, ht, Except.map] at h
    | ok t' =>
      simp only [rename, ht, Except.map, Except.ok.injEq] at h
      subst h
      simp [size, ih ht]
  | metavar n l => simp [rename] at h
  | const c => simp only [rename, Except.ok.injEq] at h; subst h; rfl

/-- The outcome of substitution: a term or the violation that ended it, and the supply of names
as it then is. -/
abbrev Substituted (κ : Type) := Except Violation (Term κ) × NameSupply

/-- Applies `f` to the term of an outcome. -/
def Substituted.map (f : Term κ → Term κ) (r : Substituted κ) : Substituted κ :=
  (r.1.map f, r.2)

/-- Puts `s` for the free occurrences of `x`, drawing new binder names from the supply. -/
def subst (x : String) (s : Term κ) : Term κ → NameSupply → Substituted κ
  | var y, names => (.ok (if y = x then s else var y), names)
  | lam p b, names =>
    if p = x then (.ok (lam p b), names)
    else match b.isFree x with
      | .error v => (.error v, names)
      | .ok false => (subst x s b names).map (lam p)
      | .ok true =>
        match names.fresh with
        | none => (.error (.namesExhausted names.size), names)
        | some (q, names') =>
          match _h : b.rename p q with
          | .error v => (.error v, names')
          | .ok b' => (subst x s b' names').map (lam q)
  | app f a, names =>
    match subst x s f names with
    | (.error v, names') => (.error v, names')
    | (.ok f', names') => (subst x s a names').map (app f')
  | group t, names => subst x s t names
  | bind n t, names => (subst x s t names).map (bind n)
  | metavar n _, names => (.error (.unexpanded n .substitution), names)
  | const c, names => (.ok (const c), names)
termination_by t => t.size
decreasing_by
  all_goals simp only [size]
  all_goals first
    | (rw [size_rename _h]; omega)
    | omega

end NormalOrder.Term
