import Mathlib.Logic.Function.Basic
import NormalOrder.Proofs.Nameless
import NormalOrder.Term.Alpha

/-!
# The nameless form of a term

`nameless` replaces every variable that a binder of the term binds by its index and keeps the name
of every other; parentheses disappear. It is the case without enclosing binders of
`namelessUnder`, which carries the names of those binders, innermost first.

Facts about names are proved of the more general `readIn ρ`, in which a variable that the term
does not bind stands for whatever `ρ` says. What a term reads as depends on its free variables
only (`readIn_congr`), a substitution in what they stand for is a substitution in the reading
(`readIn_subst`), and putting one argument for a parameter is instantiation
(`instantiate_readIn`). A variable that is free in the whole term keeps its name in the reading, and
what it stands for is put for that name (`readIn_update_free`).
-/

namespace NormalOrder

variable {κ : Type}

namespace Term

/-! ## Reading a term -/

/-- The nameless form of a term inside binders of the names `binders`, innermost first. -/
def namelessUnder (binders : List String) : Term κ → Nameless κ
  | var x =>
    match placeOf x binders with
    | some i => .bound i
    | none => .free x
  | lam p b => .lam (b.namelessUnder (p :: binders))
  | app f a => .app (f.namelessUnder binders) (a.namelessUnder binders)
  | group t => t.namelessUnder binders
  | bind n t => .bind n (t.namelessUnder binders)
  | metavar n _ => .metavar n
  | const c => .const c

/-- The nameless form of a term. -/
def nameless (t : Term κ) : Nameless κ := t.namelessUnder []

/-- What variables stand for, under a binder of `p`. -/
def underBinder (p : String) (ρ : String → Nameless κ) (x : String) : Nameless κ :=
  if x = p then .bound 0 else (ρ x).shift

/-- The parameter of a binder stands for index 0 under it. -/
@[simp] theorem underBinder_self (p : String) (ρ : String → Nameless κ) :
    underBinder p ρ p = .bound 0 :=
  if_pos rfl

/-- Another variable stands under a binder for what it stands for outside. -/
@[simp] theorem underBinder_of_ne {p x : String} (h : x ≠ p) (ρ : String → Nameless κ) :
    underBinder p ρ x = (ρ x).shift :=
  if_neg h

/-- A parameter that a binder hides keeps what it stands for under that binder. -/
theorem underBinder_update_self (x : String) (ρ : String → Nameless κ) (u : Nameless κ) :
    underBinder x (Function.update ρ x u) = underBinder x ρ := by
  funext y
  rcases eq_or_ne y x with rfl | hy
  · simp
  · simp [hy]

/-- What a variable stands for can be changed before or after a binder of another name. -/
theorem underBinder_update {x p : String} (hp : p ≠ x) (ρ : String → Nameless κ)
    (u : Nameless κ) :
    underBinder p (Function.update ρ x u) = Function.update (underBinder p ρ) x u.shift := by
  funext y
  rcases eq_or_ne y x with rfl | hx
  · simp [Ne.symm hp]
  · rcases eq_or_ne y p with rfl | hy
    · simp [hx]
    · simp [hx, hy]

/-- The reading of a term whose free variables stand for what `ρ` says. -/
def readIn (ρ : String → Nameless κ) : Term κ → Nameless κ
  | var x => ρ x
  | lam p b => .lam (b.readIn (underBinder p ρ))
  | app f a => .app (f.readIn ρ) (a.readIn ρ)
  | group t => t.readIn ρ
  | bind n t => .bind n (t.readIn ρ)
  | metavar n _ => .metavar n
  | const c => .const c

/-- What variables stand for inside the binders `binders`. -/
def scope (binders : List String) (x : String) : Nameless κ :=
  match placeOf x binders with
  | some i => .bound i
  | none => .free x

/-- One more binder around the scope. -/
theorem underBinder_scope (p : String) (binders : List String) :
    underBinder p (scope binders : String → Nameless κ) = scope (p :: binders) := by
  funext x
  rcases eq_or_ne x p with rfl | h
  · simp [scope, placeOf]
  · rw [underBinder_of_ne h, scope, scope, placeOf, if_neg h.symm]
    cases placeOf x binders <;> rfl

/-- The nameless form is the reading in the scope of the enclosing binders. -/
theorem namelessUnder_eq_readIn (t : Term κ) (binders : List String) :
    t.namelessUnder binders = t.readIn (scope binders) := by
  induction t generalizing binders with
  | var | metavar | const => rfl
  | lam p b ih => simp only [namelessUnder, readIn, ih, underBinder_scope]
  | app f a ihf iha => simp only [namelessUnder, readIn, ihf, iha]
  | group t ih => exact ih binders
  | bind n t ih => simp only [namelessUnder, readIn, ih]

/-- The nameless form of a whole term is its reading with every variable standing for itself. -/
theorem nameless_eq_readIn (t : Term κ) : t.nameless = t.readIn .free :=
  t.namelessUnder_eq_readIn []

/-- Parentheses around a term are not read. -/
@[simp] theorem readIn_ungroup (t : Term κ) (ρ : String → Nameless κ) :
    t.ungroup.readIn ρ = t.readIn ρ := by
  induction t with
  | group t ih => exact ih
  | _ => rfl

/-- Parentheses around a term have no names. -/
@[simp] theorem names_ungroup (t : Term κ) : t.ungroup.names = t.names := by
  induction t with
  | group t ih => exact ih
  | _ => rfl

/-! ## Free variables -/

/-- Whether `x` occurs free in a term. -/
def FreeIn (x : String) : Term κ → Prop
  | var y => y = x
  | lam p b => p ≠ x ∧ b.FreeIn x
  | app f a => f.FreeIn x ∨ a.FreeIn x
  | group t => t.FreeIn x
  | bind _ t => t.FreeIn x
  | metavar _ _ | const _ => False

/-- A free variable is one of the names of the term. -/
theorem FreeIn.mem_names {x : String} {t : Term κ} (h : t.FreeIn x) : x ∈ t.names := by
  induction t with
  | var y => exact List.mem_singleton.2 h.symm
  | lam p b ih => exact List.mem_cons_of_mem p (ih h.2)
  | app f a ihf iha => exact List.mem_append.2 (h.imp ihf iha)
  | group t ih | bind n t ih => exact ih h
  | metavar | const => exact h.elim

/-- The check for a free variable, where it gives an answer, gives the right one. -/
theorem isFree_eq_ok {x : String} {t : Term κ} {answer : Bool} (h : t.isFree x = .ok answer) :
    answer = true ↔ t.FreeIn x := by
  induction t generalizing answer with
  | var y =>
    cases h
    exact beq_iff_eq
  | lam p b ih =>
    rw [isFree] at h
    split at h
    · next hp =>
      cases h
      simp [FreeIn, hp]
    · next hp =>
      rw [ih h]
      exact (and_iff_right hp).symm
  | app f a ihf iha =>
    rw [isFree] at h
    split at h
    · next hf =>
      have hnot : ¬ f.FreeIn x := fun hx => Bool.false_ne_true ((ihf hf).2 hx)
      rw [iha h]
      exact (or_iff_right hnot).symm
    · next hf =>
      cases answer with
      | true => exact iff_of_true rfl (.inl ((ihf h).1 rfl))
      | false => exact absurd h hf
  | group t ih | bind n t ih => exact ih h
  | metavar => cases h
  | const =>
    cases h
    simp [FreeIn]

/-- Where the check finds no free variable, there is none. -/
theorem not_freeIn_of_isFree {x : String} {t : Term κ} (h : t.isFree x = .ok false) : ¬ t.FreeIn x :=
  fun hx => Bool.false_ne_true ((isFree_eq_ok h).2 hx)

/-! ## What a reading depends on -/

/-- A reading depends only on what the free variables stand for. -/
theorem readIn_congr {t : Term κ} {ρ ρ' : String → Nameless κ}
    (h : ∀ x, t.FreeIn x → ρ x = ρ' x) : t.readIn ρ = t.readIn ρ' := by
  induction t generalizing ρ ρ' with
  | var x => exact h x rfl
  | lam p b ih =>
    have hb : b.readIn (underBinder p ρ) = b.readIn (underBinder p ρ') := by
      refine ih fun x hx => ?_
      rcases eq_or_ne x p with rfl | hp
      · simp
      · simp [hp, h x ⟨hp.symm, hx⟩]
    rw [readIn, readIn, hb]
  | app f a ihf iha =>
    rw [readIn, readIn, ihf fun x hx => h x (.inl hx), iha fun x hx => h x (.inr hx)]
  | group t ih => exact ih h
  | bind n t ih => rw [readIn, readIn, ih h]
  | metavar | const => rfl

/-- A substitution in what variables stand for, under a binder. -/
theorem underBinder_subst (p : String) (ρ : String → Nameless κ) (σ : Nat → Nameless κ) :
    underBinder p (fun x => (ρ x).subst σ) = fun x => (underBinder p ρ x).subst (.lift σ) := by
  funext x
  rcases eq_or_ne x p with rfl | h
  · simp [Nameless.subst, Nameless.lift]
  · simp [h, Nameless.subst_shift]

/-- A substitution in what variables stand for is a substitution in the reading. -/
theorem readIn_subst (t : Term κ) (ρ : String → Nameless κ) (σ : Nat → Nameless κ) :
    t.readIn (fun x => (ρ x).subst σ) = (t.readIn ρ).subst σ := by
  induction t generalizing ρ σ with
  | var | metavar | const => rfl
  | lam p b ih => simp only [readIn, Nameless.subst, underBinder_subst, ih]
  | app f a ihf iha => simp only [readIn, Nameless.subst, ihf, iha]
  | group t ih => exact ih ρ σ
  | bind n t ih => simp only [readIn, Nameless.subst, ih]

/-- A term that does not have the name of a binder around it reads there as it does outside. -/
theorem readIn_underBinder {p : String} {t : Term κ} (h : p ∉ t.names)
    (ρ : String → Nameless κ) : t.readIn (underBinder p ρ) = (t.readIn ρ).shift := by
  have hfree : ∀ x, t.FreeIn x → underBinder p ρ x = (ρ x).shift := by
    intro x hx
    have hp : x ≠ p := fun hxp => h (hxp ▸ hx.mem_names)
    exact underBinder_of_ne hp ρ
  rw [readIn_congr hfree, Nameless.shift, Nameless.rename_eq_subst, ← readIn_subst]
  congr 1
  funext x
  rw [Nameless.shift, Nameless.rename_eq_subst]

/-- A free variable replaced in what variables stand for, under a binder. -/
theorem underBinder_substFree (p x : String) (ρ : String → Nameless κ) (u : Nameless κ) :
    underBinder p (fun y => (ρ y).substFree x u)
      = fun y => (underBinder p ρ y).substFree x u.shift := by
  funext y
  rcases eq_or_ne y p with rfl | h
  · simp [Nameless.substFree]
  · simp [h, Nameless.shift, Nameless.rename_substFree]

/-- A free variable replaced in what variables stand for is one replaced in the reading. -/
theorem readIn_substFree (t : Term κ) (x : String) (ρ : String → Nameless κ) (u : Nameless κ) :
    t.readIn (fun y => (ρ y).substFree x u) = (t.readIn ρ).substFree x u := by
  induction t generalizing ρ u with
  | var | metavar | const => rfl
  | lam p b ih => simp only [readIn, Nameless.substFree, underBinder_substFree, ih]
  | app f a ihf iha => simp only [readIn, Nameless.substFree, ihf, iha]
  | group t ih => exact ih ρ u
  | bind n t ih => simp only [readIn, Nameless.substFree, ih]

/-- A term in which `x` stands for `u`, and every other free variable for itself, reads as its nameless
form with `u` for the free `x`. -/
theorem readIn_update_free (t : Term κ) (x : String) (u : Nameless κ) :
    t.readIn (Function.update .free x u) = t.nameless.substFree x u := by
  rw [nameless_eq_readIn, ← readIn_substFree]
  congr 1
  funext y
  rcases eq_or_ne y x with rfl | h
  · simp [Nameless.substFree]
  · simp [h, Nameless.substFree]

/-- Putting `a` for the parameter `p` in a body is instantiation. -/
theorem instantiate_readIn (p : String) (b : Term κ) (ρ : String → Nameless κ) (a : Nameless κ) :
    (b.readIn (underBinder p ρ)).instantiate a = b.readIn (Function.update ρ p a) := by
  rw [Nameless.instantiate, ← readIn_subst]
  congr 1
  funext x
  rcases eq_or_ne x p with rfl | h
  · simp [Nameless.subst, Nameless.single]
  · simp [h]

end Term

end NormalOrder
