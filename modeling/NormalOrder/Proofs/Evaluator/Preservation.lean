import NormalOrder.Proofs.Evaluator.History

/-!
# Properties that evaluation keeps

Many properties of terms are kept by evaluation for the same reason: the parts of a term have them, a term
keeps them when a part is put in the place of another, and so does a term that is substituted into
(`Kept`). What a step makes of a term has such a property, and so has every definition that is stored on
the way (`StepTo.kept`, `StepTo.kept_stored`); it comes through expansion if the values of the environment
have it (`kept_expandIn`).
-/

namespace NormalOrder.Evaluator

variable {κ : Type}

/-- A property that evaluation keeps: it goes over to the parts of a term, a part may be replaced by
another term that has it, and it goes over to what a substitution makes. -/
structure Kept (P : Term κ → Prop) : Prop where
  body {p : String} {b : Term κ} : P (.lam p b) → P b
  lam {p : String} {b b' : Term κ} : P (.lam p b) → P b' → P (.lam p b')
  inner {t : Term κ} : P (.group t) → P t
  group {t t' : Term κ} : P (.group t) → P t' → P (.group t')
  value {n : String} {t : Term κ} : P (.bind n t) → P t
  bind {n : String} {t t' : Term κ} : P (.bind n t) → P t' → P (.bind n t')
  app {f a : Term κ} : P (.app f a) ↔ P f ∧ P a
  subst {x : String} {s t r : Term κ} {names names' : NameSupply} :
    Term.SubstTo x s t names r names' → P t → P s → P r

variable {P : Term κ → Prop} {t t' u : Term κ} {m m' : Evaluator κ} {r : StepResult κ}

/-- What stands in parentheses has a property that evaluation keeps if the term with them has it. -/
theorem Kept.ungroup (hP : Kept P) (h : P t) : P t.ungroup := by
  induction t with
  | group t ih => exact ih (hP.inner h)
  | var | lam | app | bind | metavar | const => exact h

/-- That a term lacks a kind of subterm is a property that evaluation keeps. -/
theorem kept_lacks (x : Term.Extra) : Kept fun t : Term κ => t.Lacks x where
  body h := Term.lacks_lam.1 h
  lam _ h := Term.lacks_lam.2 h
  inner h := h.2
  group h h' := ⟨h.1, h'⟩
  value h := h.2
  bind h h' := ⟨h.1, h'⟩
  app := Iff.rfl
  subst h ht hs := h.lacks ht hs

variable [Shown κ]

/-- What expansion gives keeps a property, if the values of the environment have it. -/
theorem kept_expandIn {env : OrderedMap String (Term κ)} {names names' : NameSupply} (hP : Kept P)
    (henv : ∀ n v, env.get? n = some v → P v) (ht : P t)
    (h : expandIn env t names = (.ok t', names')) : P t' := by
  induction t generalizing t' names names' with
  | var x =>
    cases h
    exact ht
  | lam p b ih =>
    obtain ⟨b', hb, rfl⟩ := map_fst_eq_ok h
    exact hP.lam ht (ih (hP.body ht) hb)
  | app f a ihf iha =>
    obtain ⟨hf, ha⟩ := hP.app.1 ht
    rw [expandIn] at h
    split at h
    · cases h
    · next f' names₁ hf' =>
      obtain ⟨a', ha', rfl⟩ := map_fst_eq_ok h
      exact hP.app.2 ⟨ihf hf hf', iha ha ha'⟩
  | group t ih =>
    obtain ⟨u, hu, rfl⟩ := map_fst_eq_ok h
    exact hP.group ht (ih (hP.inner ht) hu)
  | bind n t ih =>
    obtain ⟨u, hu, rfl⟩ := map_fst_eq_ok h
    exact hP.bind ht (ih (hP.value ht) hu)
  | metavar n l =>
    rw [expandIn] at h
    split at h
    · cases h
    · next v hv =>
      cases h
      exact henv n _ hv
  | const => cases h

/-- What a step makes of a term keeps its properties. -/
theorem StepTo.kept (h : StepTo t m r m') (hP : Kept P) (ht : P t) (hu : r.term? = some u) : P u := by
  induction h generalizing u with
  | var =>
    cases hu
    exact ht
  | lam _ ih =>
    obtain ⟨b', hb', rfl⟩ := StepResult.term?_map_eq_some.1 hu
    exact hP.lam ht (ih (hP.body ht) hb')
  | group _ ih => exact ih (hP.inner ht) hu
  | store _ ih => exact ih (hP.value ht) hu
  | value _ _ ih =>
    obtain ⟨t', ht', rfl⟩ := StepResult.term?_map_eq_some.1 hu
    exact hP.bind ht (ih (hP.value ht) ht')
  | redex hf hc =>
    obtain ⟨hf', ha⟩ := hP.app.1 ht
    obtain ⟨-, hk⟩ := contracts_of_contractStep hc hu
    have hlam := hP.ungroup hf'
    rw [hf] at hlam
    exact hP.subst hk.subst (hP.body hlam) ha
  | stored _ _ hc ih =>
    obtain ⟨hf, ha⟩ := hP.app.1 ht
    obtain ⟨-, hk⟩ := contracts_of_contractStep hc hu
    exact hP.subst hk.subst (hP.body (ih hf rfl)) ha
  | argument _ _ _ _ ihf iha =>
    obtain ⟨hf, ha⟩ := hP.app.1 ht
    obtain ⟨a', ha', rfl⟩ := StepResult.term?_map_eq_some.1 hu
    exact hP.app.2 ⟨ihf hf rfl, iha ha ha'⟩
  | function _ _ _ ih =>
    obtain ⟨hf, ha⟩ := hP.app.1 ht
    obtain ⟨f', hf', rfl⟩ := StepResult.term?_map_eq_some.1 hu
    exact hP.app.2 ⟨ih hf hf', ha⟩
  | metavar | const => cases hu

/-- A step brings in no kind of subterm that the term lacks. -/
theorem StepTo.lacks {x : Term.Extra} (h : StepTo t m r m') (ht : t.Lacks x)
    (hu : r.term? = some u) : u.Lacks x :=
  h.kept (kept_lacks x) ht hu

/-- The definitions that a step stores have the properties of the term. -/
theorem StepTo.kept_stored (h : StepTo t m r m') (hP : Kept P) (ht : P t) :
    ∀ e ∈ storedBy t m, P (.bind e.1 e.2) := by
  induction h with
  | var | metavar | const => exact List.forall_mem_nil _
  | lam _ ih => exact ih (hP.body ht)
  | group _ ih => exact ih (hP.inner ht)
  | @store n t v m m' hstep ih =>
    rw [storedBy, hstep.step_eq]
    intro e he
    rcases List.mem_append.1 he with he | he
    · exact ih (hP.value ht) e he
    · obtain rfl := List.mem_singleton.1 he
      exact hP.bind ht (hstep.kept hP (hP.value ht) rfl)
  | @value n t m m' r hr hstep ih =>
    rw [storedBy, hstep.step_eq]
    cases r with
    | normal v => exact absurd trivial hr
    | contracted | failed => exact ih (hP.value ht)
  | @redex p f b a m m' r hf =>
    rw [storedBy, hf]
    exact List.forall_mem_nil _
  | @stored p f b a m m' m'' r hl hf hc ih =>
    rw [storedBy_app_of_function hl hf (fun v hv => by cases hv; trivial)]
    exact ih (hP.app.1 ht).1
  | @argument f v a m m' m'' r hl hf hv ha ihf iha =>
    obtain ⟨htf, hta⟩ := hP.app.1 ht
    rw [storedBy_app hl hf hv]
    intro e he
    exact (List.mem_append.1 he).elim (ihf htf e) (iha hta e)
  | @function f a m m' r hl hr hf ih =>
    rw [storedBy_app_of_function hl hf (fun v hv => absurd (by rw [hv]; trivial) hr)]
    exact ih (hP.app.1 ht).1

/-- The definitions that a run stores have the properties of the term that it begins with. -/
theorem kept_storedIn (hP : Kept P) (bound : Nat) (ht : P t) (m : Evaluator κ) :
    ∀ e ∈ storedIn bound t m, P (.bind e.1 e.2) := by
  induction bound generalizing t m with
  | zero => exact List.forall_mem_nil _
  | succ bound ih =>
    have hstep := stepTo_step t m
    have hstored := hstep.kept_stored hP ht
    rw [storedIn]
    split
    · next u t' m' hs =>
      rw [hs] at hstep
      intro e he
      exact (List.mem_append.1 he).elim (hstored e) (ih (hstep.kept hP ht rfl) m' e)
    · exact hstored

/-- The definitions that an evaluation stores have the properties of the term and of the values of the
environment. -/
theorem kept_stored_evaluate (hP : Kept P) (henv : ∀ n v, m.environment.get? n = some v → P v)
    (ht : P t) (bound : Nat) : ∀ e ∈ Call.stored (.evaluate bound t) m, P (.bind e.1 e.2) := by
  rw [Call.stored]
  split
  · next t' m' hx =>
    obtain ⟨hx', -⟩ := Prod.mk.inj hx
    have henv' : ∀ n v, m.restart.environment.get? n = some v → P v := henv
    exact kept_storedIn hP bound (kept_expandIn hP henv' ht (Prod.ext hx' rfl)) m'
  · exact List.forall_mem_nil _

end NormalOrder.Evaluator
