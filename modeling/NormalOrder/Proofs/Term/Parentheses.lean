import NormalOrder.Proofs.Term.Alpha

/-!
# Terms without their parentheses

Taking the parentheses out of a term (`dropGroups`) commutes with the operations on terms: the check
for a free variable, renaming and substitution do to the term without parentheses what they do to
the term itself (`isFree_dropGroups`, `rename_dropGroups`, `subst_dropGroups`). In particular a
substitution draws the same names in both, although it drops some parentheses and keeps others.

Neither parentheses nor the places of metavariables hide a subterm of another kind
(`lacks_of_dropGroups`, `lacks_unlocated`). So a term without metavariables is told from others by what
is left of it without places (`eq_of_unlocated`).
-/

namespace NormalOrder.Term

variable {κ : Type} {s t : Term κ}

/-- The parentheses around a term are among those that are taken out. -/
theorem dropGroups_ungroup (t : Term κ) : t.ungroup.dropGroups = t.dropGroups := by
  induction t with
  | group t ih => exact ih
  | var | lam | app | bind | metavar | const => rfl

/-- No parentheses are left around a term that they were taken out of. -/
theorem ungroup_dropGroups (t : Term κ) : t.dropGroups.ungroup = t.dropGroups := by
  induction t with
  | group t ih => exact ih
  | var | lam | app | bind | metavar | const => rfl

/-- A term is an abstraction without its parentheses if it is one inside them. -/
theorem isLam_dropGroups (t : Term κ) : t.dropGroups.IsLam ↔ t.ungroup.IsLam := by
  induction t with
  | group t ih => exact ih
  | var | lam | app | bind | metavar | const => exact Iff.rfl

/-- A normal term has no parentheses. -/
theorem Normal.dropGroups_eq (h : t.Normal) : t.dropGroups = t := by
  induction t with
  | var => rfl
  | lam p b ih => rw [dropGroups, ih h]
  | app f a ihf iha => rw [dropGroups, ihf h.2.1, iha h.2.2]
  | group | bind | metavar | const => exact h.elim

/-- Parentheses hide no free variable. -/
theorem isFree_dropGroups (x : String) (t : Term κ) : t.dropGroups.isFree x = t.isFree x := by
  induction t with
  | var | metavar | const => rfl
  | lam p b ih => rw [dropGroups, isFree, isFree, ih]
  | app f a ihf iha => rw [dropGroups, isFree, isFree, ihf, iha]
  | group t ih | bind n t ih => exact ih

/-- Parentheses can be taken out before a renaming or after it. -/
theorem rename_dropGroups (x y : String) (t : Term κ) :
    t.dropGroups.rename x y = (t.rename x y).map dropGroups := by
  induction t with
  | var z =>
    simp only [dropGroups, rename]
    split <;> rfl
  | lam p b ih =>
    rw [dropGroups, rename, rename]
    split
    · rfl
    · rw [ih]
      cases b.rename x y with
      | error | ok => rfl
  | app f a ihf iha =>
    rw [dropGroups, rename, rename, ihf, iha]
    cases f.rename x y with
    | error => rfl
    | ok f' =>
      cases a.rename x y with
      | error | ok => rfl
  | group t ih =>
    rw [dropGroups, rename, ih]
    cases t.rename x y with
    | error | ok => rfl
  | bind n t ih =>
    rw [dropGroups, rename, rename, ih]
    cases t.rename x y with
    | error | ok => rfl
  | metavar | const => rfl

/-- Functions applied to the term of an outcome one after the other. -/
theorem Substituted.map_map (f g : Term κ → Term κ) (r : Substituted κ) :
    (r.map f).map g = r.map fun t => g (f t) := by
  obtain ⟨o, names⟩ := r
  cases o with
  | error | ok => rfl

/-- Parentheses can be taken out before a substitution or after it; it fails alike and it draws the
same names. -/
theorem subst_dropGroups (x : String) (s t : Term κ) (names : NameSupply) :
    subst x s.dropGroups t.dropGroups names = (subst x s t names).map dropGroups := by
  fun_induction subst x s t names with
  | case1 y names =>
    rw [dropGroups, subst]
    split <;> rfl
  | case2 b names =>
    rw [dropGroups, subst, if_pos rfl]
    rfl
  | case3 p b names hp v hx =>
    rw [dropGroups, subst, if_neg hp, isFree_dropGroups, hx]
    rfl
  | case4 p b names hp hx ih =>
    rw [dropGroups, subst, if_neg hp, isFree_dropGroups, hx]
    simp only [ih, Substituted.map_map, dropGroups]
  | case5 p b names hp hx hq =>
    rw [dropGroups, subst, if_neg hp, isFree_dropGroups, hx]
    simp only [hq]
    rfl
  | case6 p b names hp hx q names₁ hq v hr =>
    have hr' : b.dropGroups.rename p q = .error v := by rw [rename_dropGroups, hr]; rfl
    rw [dropGroups, subst, if_neg hp, isFree_dropGroups, hx]
    simp only [hq]
    split
    · next h =>
      obtain rfl := Except.error.inj (hr'.symm.trans h)
      rfl
    · next h => cases hr'.symm.trans h
  | case7 p b names hp hx q names₁ hq b₁ hr ih =>
    have hr' : b.dropGroups.rename p q = .ok b₁.dropGroups := by rw [rename_dropGroups, hr]; rfl
    rw [dropGroups, subst, if_neg hp, isFree_dropGroups, hx]
    simp only [hq]
    split
    · next h => cases hr'.symm.trans h
    · next h =>
      obtain rfl := Except.ok.inj (hr'.symm.trans h)
      simp only [ih, Substituted.map_map, dropGroups]
  | case8 f a names v names₁ hf ihf =>
    rw [dropGroups, subst, ihf, hf]
    rfl
  | case9 f a names f' names₁ hf ihf iha =>
    rw [dropGroups, subst, ihf, hf]
    show (subst x s.dropGroups a.dropGroups names₁).map (app f'.dropGroups) = _
    simp only [iha, Substituted.map_map, dropGroups]
  | case10 t names ih => exact ih
  | case11 n t names ih =>
    rw [dropGroups, subst, ih]
    simp only [Substituted.map_map, dropGroups]
  | case12 n l names =>
    rw [dropGroups, subst]
    rfl
  | case13 c names =>
    rw [dropGroups, subst]
    rfl

/-! ## Subterms of other kinds -/

/-- Parentheses hide no subterm of another kind. -/
theorem lacks_of_dropGroups {e : Extra} (he : e ≠ .grouping) (h : t.dropGroups.Lacks e) :
    t.Lacks e := by
  induction t with
  | var | metavar | const => exact h
  | lam p b ih => exact ih h
  | app f a ihf iha => exact ⟨ihf h.1, iha h.2⟩
  | group t ih => exact ⟨he, ih h⟩
  | bind n t ih => exact ⟨h.1, ih h.2⟩

/-- There are no places to forget in a term without metavariables. -/
theorem Lacks.unlocated_eq (h : t.Lacks .metavariable) : t.unlocated = t := by
  induction t with
  | var | const => rfl
  | lam p b ih => rw [unlocated, ih (lacks_lam.1 h)]
  | app f a ihf iha => rw [unlocated, ihf h.1, iha h.2]
  | group t ih | bind n t ih => rw [unlocated, ih h.2]
  | metavar => exact absurd rfl h

/-- A term keeps its subterms when places are forgotten. -/
theorem lacks_unlocated {e : Extra} : t.unlocated.Lacks e ↔ t.Lacks e := by
  induction t with
  | var | metavar | const => exact Iff.rfl
  | lam p b ih => exact ih
  | app f a ihf iha => exact and_congr ihf iha
  | group t ih | bind n t ih => exact and_congr_right fun _ => ih

/-- A term that differs from one without metavariables at most in places is that term. -/
theorem eq_of_unlocated (h : s.unlocated = t.unlocated) (ht : t.Lacks .metavariable) : s = t := by
  have hs : s.Lacks .metavariable := lacks_unlocated.1 (by rw [h]; exact lacks_unlocated.2 ht)
  rw [← hs.unlocated_eq, h, ht.unlocated_eq]

end NormalOrder.Term
