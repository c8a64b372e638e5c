import NormalOrder.Proofs.Nameless.Beta
import NormalOrder.Proofs.Term.Substitution

/-!
# Normal terms

A term is `Normal` if it is built from variables, abstractions and applications only and no
abstraction is applied in it. Its nameless form has no redex then (`Normal.readIn`). A term is
`Plain` if it has, beside those, at most parentheses.
-/

namespace NormalOrder

variable {κ : Type}

/-- A variable, bound or free. -/
def Nameless.IsVar : Nameless κ → Prop
  | bound _ | free _ => True
  | _ => False

namespace Term

/-- Whether a term is an abstraction. -/
def IsLam : Term κ → Prop
  | lam _ _ => True
  | _ => False

/-- A term of variables, abstractions and applications in which no abstraction is applied. -/
def Normal : Term κ → Prop
  | var _ => True
  | lam _ b => b.Normal
  | app f a => ¬ f.IsLam ∧ f.Normal ∧ a.Normal
  | group _ | bind _ _ | metavar _ _ | const _ => False

/-- A term of variables, abstractions, applications and parentheses. -/
structure Plain (t : Term κ) : Prop where
  binding : t.Lacks .binding
  metavariable : t.Lacks .metavariable
  constant : t.Lacks .constant

variable {t f a : Term κ} {ρ : String → Nameless κ}

/-- A term that is no abstraction is not the abstraction of anything. -/
theorem not_isLam_iff : ¬ t.IsLam ↔ ∀ p b, t ≠ lam p b := by
  cases t with
  | lam p b => simp [IsLam]
  | var | app | group | bind | metavar | const => simp [IsLam]

/-- A normal term has none of the subterms that the λ-calculus does not have. -/
theorem Normal.lacks (h : t.Normal) (e : Extra) : t.Lacks e := by
  induction t with
  | var => trivial
  | lam p b ih => exact ih h
  | app f a ihf iha => exact ⟨ihf h.2.1, iha h.2.2⟩
  | group | bind | metavar | const => exact h.elim

/-- A normal term is plain. -/
theorem Normal.plain (h : t.Normal) : t.Plain :=
  ⟨h.lacks _, h.lacks _, h.lacks _⟩

/-- There are no parentheses around a normal term. -/
theorem Normal.ungroup_eq (h : t.Normal) : t.ungroup = t := by
  cases t with
  | var | lam | app | bind | metavar | const => rfl
  | group => exact h.elim

/-- An expression of the language has no foreign constants. -/
theorem lacks_constant (t : Expr) : t.Lacks .constant := by
  induction t with
  | var => trivial
  | lam p b ih => exact ih
  | app f a ihf iha => exact ⟨ihf, iha⟩
  | group t ih | bind n t ih => exact ⟨nofun, ih⟩
  | metavar => exact nofun
  | const c => exact c.elim

/-- An expression of the language is plain if it has no bindings and no metavariables. -/
theorem plain_expr {t : Expr} (hb : t.Lacks .binding) (hm : t.Lacks .metavariable) : t.Plain :=
  ⟨hb, hm, t.lacks_constant⟩

/-! ## Parts of plain terms -/

/-- A plain term applied to a plain term is plain. -/
theorem plain_app (hf : f.Plain) (ha : a.Plain) : (app f a).Plain :=
  ⟨⟨hf.binding, ha.binding⟩, ⟨hf.metavariable, ha.metavariable⟩, ⟨hf.constant, ha.constant⟩⟩

/-- The body of a plain abstraction is plain. -/
theorem Plain.body {p : String} {b : Term κ} (h : (lam p b).Plain) : b.Plain :=
  ⟨h.binding, h.metavariable, h.constant⟩

/-- The function of a plain application is plain. -/
theorem Plain.function (h : (app f a).Plain) : f.Plain :=
  ⟨h.binding.1, h.metavariable.1, h.constant.1⟩

/-- The argument of a plain application is plain. -/
theorem Plain.argument (h : (app f a).Plain) : a.Plain :=
  ⟨h.binding.2, h.metavariable.2, h.constant.2⟩

/-- What stands in parentheses in a plain term is plain. -/
theorem Plain.inner (h : (group t).Plain) : t.Plain :=
  ⟨h.binding.2, h.metavariable.2, h.constant.2⟩

/-- A plain term without the parentheses around it is plain. -/
theorem Plain.ungroup (h : t.Plain) : t.ungroup.Plain := by
  induction t with
  | group t ih => exact ih h.inner
  | var | lam | app | bind | metavar | const => exact h

/-! ## Readings -/

/-- Under a binder variables still stand for variables. -/
theorem isVar_underBinder {p : String} (hρ : ∀ x, (ρ x).IsVar) (x : String) :
    (underBinder p ρ x).IsVar := by
  unfold underBinder
  split
  · trivial
  · have hx := hρ x
    cases h : ρ x with
    | bound | free => trivial
    | lam | app | bind | metavar | const =>
      rw [h] at hx
      exact hx.elim

/-- A plain term reads as an abstraction only if it is one, apart from parentheses. -/
theorem Plain.not_isLam_readIn (h : t.Plain) (ht : ¬ t.ungroup.IsLam) (hρ : ∀ x, (ρ x).IsVar) :
    ¬ (t.readIn ρ).IsLam := by
  induction t with
  | var x =>
    intro hl
    have hx := hρ x
    rw [Term.readIn] at hl
    cases hu : ρ x with
    | lam =>
      rw [hu] at hx
      exact hx
    | bound | free | app | bind | metavar | const =>
      rw [hu] at hl
      exact hl
  | lam => exact absurd trivial ht
  | app => exact id
  | group t ih => exact ih h.inner ht
  | bind => exact absurd rfl h.binding.1
  | metavar => exact absurd rfl h.metavariable
  | const => exact absurd rfl h.constant

/-- A variable has no redex. -/
theorem normal_of_isVar {u : Nameless κ} (h : u.IsVar) : u.Normal := by
  cases u with
  | bound | free => exact fun _ hb => nomatch hb
  | lam | app | bind | metavar | const => exact h.elim

/-- The reading of a normal term has no redex. -/
theorem Normal.readIn (h : t.Normal) (hρ : ∀ x, (ρ x).IsVar) : (t.readIn ρ).Normal := by
  induction t generalizing ρ with
  | var x => exact normal_of_isVar (hρ x)
  | lam p b ih => exact Nameless.normal_lam.2 (ih h (isVar_underBinder hρ))
  | app f a ihf iha =>
    obtain ⟨hl, hf, ha⟩ := h
    have hl' : ¬ f.ungroup.IsLam := by rwa [hf.ungroup_eq]
    exact Nameless.normal_app.2 ⟨hf.plain.not_isLam_readIn hl' hρ, ihf hf hρ, iha ha hρ⟩
  | group | bind | metavar | const => exact h.elim

end Term

end NormalOrder
