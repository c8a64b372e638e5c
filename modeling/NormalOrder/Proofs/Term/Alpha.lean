import NormalOrder.Proofs.Term.Normal

/-!
# α-equivalence is equality of nameless forms

Two terms are found α-equivalent exactly if they have the same nameless form
(`alphaEquals_iff_nameless`), so α-equivalence is an equivalence relation. Parentheses and the
places of metavariables have no part in it: `dropGroups` takes the parentheses out of a term, and
terms that are then alike up to those places are α-equivalent (`alphaEquals_of_dropGroups`).

Where variables stand for variables, a term is built as it is read, apart from parentheses: the
lemmas `ungroup_eq_…`, one for each constructor, invert the reading.
-/

namespace NormalOrder.Term

variable {κ : Type} {s t : Term κ} {ρ ρ' : String → Nameless κ}

/-! ## What a reading does not see -/

/-- Where a metavariable was written is not read. -/
theorem readIn_unlocated (t : Term κ) (ρ : String → Nameless κ) :
    t.unlocated.readIn ρ = t.readIn ρ := by
  induction t generalizing ρ with
  | var | metavar | const => rfl
  | lam p b ih => rw [unlocated, readIn, readIn, ih]
  | app f a ihf iha => rw [unlocated, readIn, readIn, ihf, iha]
  | group t ih => exact ih ρ
  | bind n t ih => rw [unlocated, readIn, readIn, ih]

/-- The term with all its parentheses taken out. -/
def dropGroups : Term κ → Term κ
  | var x => var x
  | lam p b => lam p b.dropGroups
  | app f a => app f.dropGroups a.dropGroups
  | group t => t.dropGroups
  | bind n t => bind n t.dropGroups
  | metavar n l => metavar n l
  | const c => const c

/-- Parentheses are not read. -/
theorem readIn_dropGroups (t : Term κ) (ρ : String → Nameless κ) :
    t.dropGroups.readIn ρ = t.readIn ρ := by
  induction t generalizing ρ with
  | var | metavar | const => rfl
  | lam p b ih => rw [dropGroups, readIn, readIn, ih]
  | app f a ihf iha => rw [dropGroups, readIn, readIn, ihf, iha]
  | group t ih => exact ih ρ
  | bind n t ih => rw [dropGroups, readIn, readIn, ih]

/-! ## Terms that read alike -/

/-- In the scope of binders variables stand for variables. -/
theorem isVar_scope (binders : List String) (x : String) :
    (scope binders x : Nameless κ).IsVar := by
  unfold scope
  split <;> trivial

variable {u v : Nameless κ}

/-- Inside its parentheses a term that is read as a variable is a variable. -/
theorem ungroup_eq_var (h : t.readIn ρ = u) (hu : u.IsVar) : ∃ x, t.ungroup = var x ∧ ρ x = u := by
  induction t with
  | var x => exact ⟨x, rfl, h⟩
  | group t ih => exact ih h
  | lam | app | bind | metavar | const =>
    subst h
    exact hu.elim

section
variable (hρ : ∀ x, (ρ x).IsVar)
include hρ

/-- Where variables stand for variables, a variable is read as one. -/
theorem isVar_of_readIn_var {x : String} (h : (var x).readIn ρ = u) : u.IsVar := by
  subst h
  exact hρ x

/-- Inside its parentheses a term that is read as an abstraction is an abstraction. -/
theorem ungroup_eq_lam (h : t.readIn ρ = .lam u) :
    ∃ p b, t.ungroup = lam p b ∧ b.readIn (underBinder p ρ) = u := by
  induction t with
  | lam p b => exact ⟨p, b, rfl, Nameless.lam.inj h⟩
  | group t ih => exact ih h
  | var x => exact (isVar_of_readIn_var hρ h).elim
  | app | bind | metavar | const => cases h

/-- Inside its parentheses a term that is read as an application is an application. -/
theorem ungroup_eq_app (h : t.readIn ρ = .app u v) :
    ∃ f a, t.ungroup = app f a ∧ f.readIn ρ = u ∧ a.readIn ρ = v := by
  induction t with
  | app f a => exact ⟨f, a, rfl, Nameless.app.inj h⟩
  | group t ih => exact ih h
  | var x => exact (isVar_of_readIn_var hρ h).elim
  | lam | bind | metavar | const => cases h

/-- Inside its parentheses a term that is read as a binding is a binding. -/
theorem ungroup_eq_bind {n : String} (h : t.readIn ρ = .bind n u) :
    ∃ s, t.ungroup = bind n s ∧ s.readIn ρ = u := by
  induction t with
  | bind m s =>
    obtain ⟨rfl, hs⟩ := Nameless.bind.inj h
    exact ⟨s, rfl, hs⟩
  | group t ih => exact ih h
  | var x => exact (isVar_of_readIn_var hρ h).elim
  | lam | app | metavar | const => cases h

/-- Inside its parentheses a term that is read as a metavariable is that metavariable. -/
theorem ungroup_eq_metavar {n : String} (h : t.readIn ρ = .metavar n) :
    ∃ l, t.ungroup = metavar n l := by
  induction t with
  | metavar m l =>
    obtain rfl := Nameless.metavar.inj h
    exact ⟨l, rfl⟩
  | group t ih => exact ih h
  | var x => exact (isVar_of_readIn_var hρ h).elim
  | lam | app | bind | const => cases h

/-- Inside its parentheses a term that is read as a constant is that constant. -/
theorem ungroup_eq_const {c : κ} (h : t.readIn ρ = .const c) : t.ungroup = const c := by
  induction t with
  | const d => exact congrArg const (Nameless.const.inj h)
  | group t ih => exact ih h
  | var x => exact (isVar_of_readIn_var hρ h).elim
  | lam | app | bind | metavar => cases h

/-- A term that reads like one that is no abstraction inside its parentheses is none either. -/
theorem not_isLam_of_readIn (hs : ¬ s.ungroup.IsLam) (h : s.readIn ρ = t.readIn ρ') :
    ¬ t.ungroup.IsLam := by
  rw [not_isLam_iff] at hs ⊢
  intro q c ht
  rw [← readIn_ungroup t, ht] at h
  obtain ⟨p, b, hu, -⟩ := ungroup_eq_lam hρ h
  exact hs p b hu

end

/-! ## α-equivalence -/

/-- Two variables agree under pairs of binders if they stand for the same there. -/
theorem sameVariable_iff {binders : List (String × String)} {x y : String} :
    sameVariable binders x y = true ↔
      (scope (binders.map Prod.fst) x : Nameless κ) = scope (binders.map Prod.snd) y := by
  rw [sameVariable, scope, scope]
  cases placeOf x (binders.map Prod.fst) with
  | none => cases placeOf y (binders.map Prod.snd) <;> simp
  | some i => cases placeOf y (binders.map Prod.snd) <;> simp

variable [DecidableEq κ]

/-- Terms that are found α-equivalent under pairs of binders read alike there. -/
theorem readIn_of_alphaEqualsUnder {binders : List (String × String)}
    (h : alphaEqualsUnder binders s t = true) :
    s.readIn (scope (binders.map Prod.fst)) = t.readIn (scope (binders.map Prod.snd)) := by
  rw [← readIn_ungroup t]
  induction s generalizing binders t with
  | group s ih => exact ih h
  | var x =>
    rw [alphaEqualsUnder] at h
    split at h
    · next hu =>
      rw [hu]
      exact sameVariable_iff.1 h
    · cases h
  | lam p b ih =>
    rw [alphaEqualsUnder] at h
    split at h
    · next q c hu =>
      have hb := ih h
      rw [readIn_ungroup, List.map_cons, List.map_cons] at hb
      rw [hu, readIn, readIn, underBinder_scope, underBinder_scope, hb]
    · cases h
  | app f a ihf iha =>
    rw [alphaEqualsUnder] at h
    split at h
    · next g c hu =>
      obtain ⟨hf, ha⟩ := Bool.and_eq_true_iff.1 h
      have hf' := ihf hf
      have ha' := iha ha
      rw [readIn_ungroup] at hf' ha'
      rw [hu, readIn, readIn, hf', ha']
    · cases h
  | bind n s ih =>
    rw [alphaEqualsUnder] at h
    split at h
    · next m u hu =>
      obtain ⟨hn, hs⟩ := Bool.and_eq_true_iff.1 h
      have hs' := ih hs
      rw [readIn_ungroup] at hs'
      rw [hu, readIn, readIn, beq_iff_eq.1 hn, hs']
    · cases h
  | metavar n l =>
    rw [alphaEqualsUnder] at h
    split at h
    · next m l' hu => rw [hu, readIn, readIn, beq_iff_eq.1 h]
    · cases h
  | const c =>
    rw [alphaEqualsUnder] at h
    split at h
    · next d hu => rw [hu, readIn, readIn, beq_iff_eq.1 h]
    · cases h

/-- Terms that read alike under pairs of binders are found α-equivalent there. -/
theorem alphaEqualsUnder_of_readIn {binders : List (String × String)}
    (h : s.readIn (scope (binders.map Prod.fst)) = t.readIn (scope (binders.map Prod.snd))) :
    alphaEqualsUnder binders s t = true := by
  induction s generalizing binders t with
  | group s ih => exact ih h
  | var x =>
    obtain ⟨y, ht, hy⟩ := ungroup_eq_var h.symm (isVar_scope _ x)
    simp only [alphaEqualsUnder, ht]
    exact sameVariable_iff.2 hy.symm
  | lam p b ih =>
    obtain ⟨q, c, ht, hc⟩ := ungroup_eq_lam (isVar_scope _) h.symm
    rw [underBinder_scope, underBinder_scope] at hc
    simp only [alphaEqualsUnder, ht]
    exact ih hc.symm
  | app f a ihf iha =>
    obtain ⟨g, c, ht, hg, hc⟩ := ungroup_eq_app (isVar_scope _) h.symm
    simp only [alphaEqualsUnder, ht, ihf hg.symm, iha hc.symm, Bool.and_self]
  | bind n s ih =>
    obtain ⟨u, ht, hu⟩ := ungroup_eq_bind (isVar_scope _) h.symm
    simp only [alphaEqualsUnder, ht, ih hu.symm, beq_self_eq_true, Bool.and_self]
  | metavar n l =>
    obtain ⟨l', ht⟩ := ungroup_eq_metavar (isVar_scope _) h.symm
    simp only [alphaEqualsUnder, ht, beq_self_eq_true]
  | const c =>
    have ht := ungroup_eq_const (isVar_scope _) h.symm
    simp only [alphaEqualsUnder, ht, beq_self_eq_true]

/-- α-equivalent terms are those with the same nameless form. -/
theorem alphaEquals_iff_nameless : s.alphaEquals t = true ↔ s.nameless = t.nameless := by
  rw [nameless, nameless, namelessUnder_eq_readIn, namelessUnder_eq_readIn]
  refine ⟨fun h => readIn_of_alphaEqualsUnder h, fun h => ?_⟩
  exact alphaEqualsUnder_of_readIn (by simpa only [List.map_nil] using h)

/-- Terms that are built alike without their parentheses, whatever the places of their
metavariables, are α-equivalent. -/
theorem alphaEquals_of_dropGroups (h : s.dropGroups.same t.dropGroups = true) :
    s.alphaEquals t = true := by
  have hsame : s.dropGroups.unlocated = t.dropGroups.unlocated := of_decide_eq_true h
  rw [alphaEquals_iff_nameless, nameless_eq_readIn, nameless_eq_readIn, ← readIn_dropGroups s,
    ← readIn_unlocated, hsame, readIn_unlocated, readIn_dropGroups]

end NormalOrder.Term
