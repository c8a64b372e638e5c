/-!
# Nameless terms

Terms whose bound variables are de Bruijn indices, counted from the innermost binder, and whose
free variables have names. Parentheses have no place in them; bindings, metavariables and foreign
constants are kept, so that every term has a nameless form and two terms are α-equivalent when
they have the same one.

Substitution is parallel: `subst σ` replaces every index `i` by `σ i`, and `instantiate` is the
case in which a body receives its argument; `substFree` replaces a free variable, which has a name
and no index. What the rest relies on are the laws of composition,
`subst_rename`, `rename_subst` and `subst_subst`, and the law `subst_instantiate` that follows.
-/

namespace NormalOrder

/-- λ-terms over the foreign constants `κ` with indices for bound variables. -/
inductive Nameless (κ : Type) where
  /-- A bound variable: the binder that has `index` binders between it and the variable. -/
  | bound (index : Nat)
  /-- A free variable. -/
  | free (name : String)
  /-- An abstraction; index 0 is its parameter in `body`. -/
  | lam (body : Nameless κ)
  /-- A function applied to an argument. -/
  | app (function argument : Nameless κ)
  /-- The assignment of `value` to `name`. -/
  | bind (name : String) (value : Nameless κ)
  /-- A reference to the value of `name`. -/
  | metavar (name : String)
  /-- A foreign constant. -/
  | const (value : κ)
deriving DecidableEq

namespace Nameless

variable {κ : Type}

/-! ## Renaming -/

/-- A renaming of indices, taken under a binder. -/
def up (ξ : Nat → Nat) : Nat → Nat
  | 0 => 0
  | i + 1 => ξ i + 1

/-- Renames the indices that no binder of the term binds. -/
def rename (ξ : Nat → Nat) : Nameless κ → Nameless κ
  | bound i => bound (ξ i)
  | free x => free x
  | lam b => lam (b.rename (up ξ))
  | app f a => app (f.rename ξ) (a.rename ξ)
  | bind n t => bind n (t.rename ξ)
  | metavar n => metavar n
  | const c => const c

/-- A term taken under one more binder. -/
def shift (t : Nameless κ) : Nameless κ := t.rename (· + 1)

/-! ## Substitution -/

/-- A substitution, taken under a binder. -/
def lift (σ : Nat → Nameless κ) : Nat → Nameless κ
  | 0 => bound 0
  | i + 1 => (σ i).shift

/-- Replaces every index `i` that no binder of the term binds by `σ i`. -/
def subst (σ : Nat → Nameless κ) : Nameless κ → Nameless κ
  | bound i => σ i
  | free x => free x
  | lam b => lam (b.subst (lift σ))
  | app f a => app (f.subst σ) (a.subst σ)
  | bind n t => bind n (t.subst σ)
  | metavar n => metavar n
  | const c => const c

/-- The substitution that gives `a` to index 0 and lowers the others. -/
def single (a : Nameless κ) : Nat → Nameless κ
  | 0 => a
  | i + 1 => bound i

/-- The body `b` of an abstraction with `a` for its parameter. -/
def instantiate (b a : Nameless κ) : Nameless κ := b.subst (single a)

/-- Replaces every free variable `x` by `s`. -/
def substFree (x : String) : Nameless κ → Nameless κ → Nameless κ
  | bound i, _ => bound i
  | free y, s => if y = x then s else free y
  | lam b, s => lam (b.substFree x s.shift)
  | app f a, s => app (f.substFree x s) (a.substFree x s)
  | bind n t, s => bind n (t.substFree x s)
  | metavar n, _ => metavar n
  | const c, _ => const c

/-! ## Laws of composition -/

/-- Renamings compose under a binder. -/
theorem up_comp (ξ ζ : Nat → Nat) : up ζ ∘ up ξ = up (ζ ∘ ξ) := by
  funext i
  cases i <;> rfl

/-- Renaming twice is renaming by the composition. -/
theorem rename_rename (t : Nameless κ) (ξ ζ : Nat → Nat) :
    (t.rename ξ).rename ζ = t.rename (ζ ∘ ξ) := by
  induction t generalizing ξ ζ with
  | bound | free | metavar | const => rfl
  | lam b ih => simp only [rename, ih, up_comp]
  | app f a ihf iha => simp only [rename, ihf, iha]
  | bind n t ih => simp only [rename, ih]

/-- Shifting commutes with renaming. -/
theorem rename_shift (t : Nameless κ) (ξ : Nat → Nat) :
    t.shift.rename (up ξ) = (t.rename ξ).shift := by
  rw [shift, shift, rename_rename, rename_rename]
  rfl

/-- Renaming indices commutes with replacing a free variable. -/
theorem rename_substFree (x : String) (t s : Nameless κ) (ξ : Nat → Nat) :
    (t.substFree x s).rename ξ = (t.rename ξ).substFree x (s.rename ξ) := by
  induction t generalizing s ξ with
  | bound | metavar | const => rfl
  | free y =>
    simp only [substFree, rename]
    split <;> rfl
  | lam b ih => simp only [substFree, rename, ih, rename_shift]
  | app f a ihf iha => simp only [substFree, rename, ihf, iha]
  | bind n t ih => simp only [substFree, rename, ih]

/-- A substitution after a renaming, under a binder. -/
theorem lift_comp_up (σ : Nat → Nameless κ) (ξ : Nat → Nat) : lift σ ∘ up ξ = lift (σ ∘ ξ) := by
  funext i
  cases i <;> rfl

/-- Substituting in a renamed term is substituting by the composition. -/
theorem subst_rename (t : Nameless κ) (ξ : Nat → Nat) (σ : Nat → Nameless κ) :
    (t.rename ξ).subst σ = t.subst (σ ∘ ξ) := by
  induction t generalizing ξ σ with
  | bound | free | metavar | const => rfl
  | lam b ih => simp only [rename, subst, ih, lift_comp_up]
  | app f a ihf iha => simp only [rename, subst, ihf, iha]
  | bind n t ih => simp only [rename, subst, ih]

/-- A renaming after a substitution, under a binder. -/
theorem rename_lift (σ : Nat → Nameless κ) (ξ : Nat → Nat) :
    (fun i => (lift σ i).rename (up ξ)) = lift (fun i => (σ i).rename ξ) := by
  funext i
  cases i with
  | zero => rfl
  | succ i => exact rename_shift (σ i) ξ

/-- Renaming the result of a substitution is renaming what was put in. -/
theorem rename_subst (t : Nameless κ) (σ : Nat → Nameless κ) (ξ : Nat → Nat) :
    (t.subst σ).rename ξ = t.subst (fun i => (σ i).rename ξ) := by
  induction t generalizing σ ξ with
  | bound | free | metavar | const => rfl
  | lam b ih => simp only [rename, subst, ih, rename_lift]
  | app f a ihf iha => simp only [rename, subst, ihf, iha]
  | bind n t ih => simp only [rename, subst, ih]

/-- Shifting commutes with substitution. -/
theorem subst_shift (t : Nameless κ) (σ : Nat → Nameless κ) :
    t.shift.subst (lift σ) = (t.subst σ).shift := by
  rw [shift, shift, subst_rename, rename_subst]
  rfl

/-- A substitution after a substitution, under a binder. -/
theorem subst_lift (σ τ : Nat → Nameless κ) :
    (fun i => (lift σ i).subst (lift τ)) = lift (fun i => (σ i).subst τ) := by
  funext i
  cases i with
  | zero => rfl
  | succ i => exact subst_shift (σ i) τ

/-- Substituting twice is substituting in what was put in. -/
theorem subst_subst (t : Nameless κ) (σ τ : Nat → Nameless κ) :
    (t.subst σ).subst τ = t.subst (fun i => (σ i).subst τ) := by
  induction t generalizing σ τ with
  | bound | free | metavar | const => rfl
  | lam b ih => simp only [subst, ih, subst_lift]
  | app f a ihf iha => simp only [subst, ihf, iha]
  | bind n t ih => simp only [subst, ih]

/-- The substitution that changes nothing, under a binder. -/
theorem lift_bound : lift (bound : Nat → Nameless κ) = bound := by
  funext i
  cases i <;> rfl

/-- Putting every index for itself changes nothing. -/
@[simp] theorem subst_bound (t : Nameless κ) : t.subst bound = t := by
  induction t with
  | bound | free | metavar | const => rfl
  | lam b ih => simp only [subst, lift_bound, ih]
  | app f a ihf iha => simp only [subst, ihf, iha]
  | bind n t ih => simp only [subst, ih]

/-- A renaming is a substitution by indices. -/
theorem rename_eq_subst (t : Nameless κ) (ξ : Nat → Nat) :
    t.rename ξ = t.subst (fun i => bound (ξ i)) := by
  rw [← subst_bound (t.rename ξ), subst_rename]
  rfl

/-- A term that does not mention the parameter is not changed by its argument. -/
@[simp] theorem subst_single_shift (t a : Nameless κ) : t.shift.subst (single a) = t := by
  rw [shift, subst_rename]
  exact subst_bound t

/-- Substitution commutes with instantiation. -/
theorem subst_instantiate (b a : Nameless κ) (σ : Nat → Nameless κ) :
    (b.instantiate a).subst σ = (b.subst (lift σ)).instantiate (a.subst σ) := by
  rw [instantiate, instantiate, subst_subst, subst_subst]
  congr 1
  funext i
  cases i with
  | zero => rfl
  | succ i => exact (subst_single_shift (σ i) (a.subst σ)).symm

end Nameless

end NormalOrder
