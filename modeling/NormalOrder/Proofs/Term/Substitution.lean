import NormalOrder.Proofs.Names
import NormalOrder.Proofs.Term.Nameless
import NormalOrder.Term.Substitution

/-!
# Substitution reads as substitution

Substitution on terms draws new binder names, and what makes it right is that no drawn name is one
of the names in its way. `NameSupply.Covers` says so: every name of a term is in use. From a supply
that covers both terms, a substitution that succeeds gives a term that reads as the body does with
the parameter standing for the argument (`SubstTo.readIn`), whatever its binders are called, and
the supply covers it again (`SubstTo.covers`).

`RenameTo` and `SubstTo` are renaming and substitution as relations, one rule for each way in which they
can succeed; a renaming or a substitution that succeeds is one of these (`renameTo_of_rename`,
`substTo_of_subst`), and each invariant is proved from the rules. In a body without metavariables
substitution can only run out of names (`exhausted_of_subst`), which it does not where subscripts are
allowed (`exists_subst`).
-/

namespace NormalOrder

variable {κ : Type}

/-- A mapped outcome is a success if the outcome is. -/
theorem map_eq_ok {ε α β : Type} {f : α → β} {e : Except ε α} {b : β} :
    e.map f = .ok b ↔ ∃ a, e = .ok a ∧ f a = b := by
  cases e with
  | error => simp [Except.map]
  | ok a => simp [Except.map]

/-- A mapped outcome beside a state is a success if the outcome is. -/
theorem map_fst_eq_ok {ε σ α β : Type} {f : α → β} {o : Except ε α × σ} {b : β} {s : σ}
    (h : (o.1.map f, o.2) = (.ok b, s)) : ∃ a, o = (.ok a, s) ∧ f a = b := by
  obtain ⟨e, s'⟩ := o
  obtain ⟨he, rfl⟩ := Prod.mk.inj h
  obtain ⟨a, ha, hb⟩ := map_eq_ok.1 he
  obtain rfl : e = .ok a := ha
  exact ⟨a, rfl, hb⟩

/-- A mapped outcome beside a state is a failure if the outcome is. -/
theorem map_fst_eq_error {ε σ α β : Type} {f : α → β} {o : Except ε α × σ} {e : ε} {s : σ}
    (h : (o.1.map f, o.2) = (.error e, s)) : o = (.error e, s) := by
  obtain ⟨r, s'⟩ := o
  cases r with
  | error =>
    cases h
    rfl
  | ok => cases h

/-! ## Supplies that cover a term -/

namespace NameSupply

/-- Every name of the term is in use. -/
def Covers (s : NameSupply) (t : Term κ) : Prop := ∀ x ∈ t.names, s.contains x = true

/-- A supply covers an abstraction if it has its parameter in use and covers its body. -/
theorem covers_lam {s : NameSupply} {p : String} {b : Term κ} :
    s.Covers (.lam p b) ↔ s.contains p = true ∧ s.Covers b :=
  List.forall_mem_cons

/-- A supply covers an application if it covers its parts. -/
theorem covers_app {s : NameSupply} {f a : Term κ} :
    s.Covers (.app f a) ↔ s.Covers f ∧ s.Covers a :=
  List.forall_mem_append

/-- `s'` is `s` with further names in use. -/
structure Grows (s s' : NameSupply) : Prop where
  subscripts : s'.subscripts = s.subscripts
  contains : ∀ x, s.contains x = true → s'.contains x = true

/-- A supply that did not change has grown. -/
theorem Grows.refl (s : NameSupply) : Grows s s := ⟨rfl, fun _ h => h⟩

/-- Supplies grow in stages. -/
theorem Grows.trans {s s' s'' : NameSupply} (h : Grows s s') (h' : Grows s' s'') : Grows s s'' :=
  ⟨h'.subscripts.trans h.subscripts, fun x hx => h'.contains x (h.contains x hx)⟩

/-- A supply goes on to cover what it covered before. -/
theorem Grows.covers {s s' : NameSupply} {t : Term κ} (h : Grows s s') (ht : s.Covers t) :
    s'.Covers t :=
  fun x hx => h.contains x (ht x hx)

/-- Marking a name lets a supply grow. -/
theorem grows_use (s : NameSupply) (x : String) : Grows s (s.use x) :=
  ⟨rfl, fun y hy => (contains_use s x y).2 (.inr hy)⟩

/-- Marking the names of a list lets a supply grow. -/
theorem grows_useAll (s : NameSupply) (xs : List String) : Grows s (s.useAll xs) := by
  induction xs generalizing s with
  | nil => exact .refl s
  | cons x xs ih => exact (s.grows_use x).trans (ih (s.use x))

/-- Drawing a name marks it. -/
theorem grows_of_fresh {s s' : NameSupply} {x : String} (h : s.fresh = some (x, s')) :
    Grows s s' := by
  obtain ⟨-, rfl⟩ := fresh_eq_some h
  exact s.grows_use x

/-- A drawn name is none of a term that was covered. -/
theorem Covers.fresh_not_mem {s s' : NameSupply} {x : String} {t : Term κ} (ht : s.Covers t)
    (h : s.fresh = some (x, s')) : x ∉ t.names := by
  intro hx
  have hused := ht x hx
  rw [(fresh_eq_some h).1] at hused
  cases hused

end NameSupply

namespace Term

/-! ## What a term may have beside variables, abstractions and applications -/

/-- The kinds of subterms that the λ-calculus does not have. -/
inductive Extra where
  | grouping
  | binding
  | metavariable
  | constant
deriving DecidableEq

/-- There is no subterm of a kind. -/
def Lacks (e : Extra) : Term κ → Prop
  | var _ => True
  | lam _ b => b.Lacks e
  | app f a => f.Lacks e ∧ a.Lacks e
  | group t => e ≠ .grouping ∧ t.Lacks e
  | bind _ t => e ≠ .binding ∧ t.Lacks e
  | metavar _ _ => e ≠ .metavariable
  | const _ => e ≠ .constant

/-- An abstraction lacks what its body lacks. -/
theorem lacks_lam {e : Extra} {p : String} {b : Term κ} : (lam p b).Lacks e ↔ b.Lacks e := Iff.rfl

/-! ## Renaming -/

variable {p q : String} {t t' : Term κ}

/-- Renaming `p` to `q` in a term succeeds with a result: the rules by which it can. -/
inductive RenameTo (p q : String) : Term κ → Term κ → Prop where
  | found : RenameTo p q (var p) (var q)
  | other {y : String} (hy : y ≠ p) : RenameTo p q (var y) (var y)
  | shadowed (b : Term κ) : RenameTo p q (lam p b) (lam p b)
  | lam {r : String} {b b' : Term κ} (hr : r ≠ p) (hb : RenameTo p q b b') :
    RenameTo p q (lam r b) (lam r b')
  | app {f f' a a' : Term κ} (hf : RenameTo p q f f') (ha : RenameTo p q a a') :
    RenameTo p q (app f a) (app f' a')
  | group {t t' : Term κ} (ht : RenameTo p q t t') : RenameTo p q (group t) (group t')
  | bind {n : String} {t t' : Term κ} (ht : RenameTo p q t t') :
    RenameTo p q (bind n t) (bind n t')
  | const (c : κ) : RenameTo p q (const c) (const c)

/-- A renaming that succeeds does so by the rules. -/
theorem renameTo_of_rename (h : t.rename p q = .ok t') : RenameTo p q t t' := by
  induction t generalizing t' with
  | var y =>
    cases h
    split
    · next hy => exact hy ▸ .found
    · next hy => exact .other hy
  | lam r b ih =>
    rw [rename] at h
    split at h
    · next hr =>
      cases h
      exact hr ▸ .shadowed b
    · next hr =>
      obtain ⟨b', hb, rfl⟩ := map_eq_ok.1 h
      exact .lam hr (ih hb)
  | app f a ihf iha =>
    rw [rename] at h
    split at h
    · cases h
    · next f' hf =>
      obtain ⟨a', ha, rfl⟩ := map_eq_ok.1 h
      exact .app (ihf hf) (iha ha)
  | group t ih =>
    obtain ⟨u, hu, rfl⟩ := map_eq_ok.1 h
    exact .group (ih hu)
  | bind n t ih =>
    obtain ⟨u, hu, rfl⟩ := map_eq_ok.1 h
    exact .bind (ih hu)
  | metavar => cases h
  | const c =>
    cases h
    exact .const c

/-- Renaming brings no name in but the new one. -/
theorem mem_names_rename (h : t.rename p q = .ok t') {x : String} (hx : x ∈ t'.names) :
    x = q ∨ x ∈ t.names := by
  replace h := renameTo_of_rename h
  induction h with
  | found => exact .inl (List.mem_singleton.1 hx)
  | other | shadowed | const => exact .inr hx
  | lam hr hb ih =>
    rcases List.mem_cons.1 hx with rfl | hx
    · exact .inr (.head _)
    · exact (ih hx).imp_right (List.mem_cons_of_mem _)
  | app _ _ ihf iha =>
    rcases List.mem_append.1 hx with hx | hx
    · exact (ihf hx).imp_right (List.mem_append_left _)
    · exact (iha hx).imp_right (List.mem_append_right _)
  | group _ ih | bind _ ih => exact ih hx

/-- Renaming changes no kind of subterm. -/
theorem Lacks.rename {e : Extra} (ht : t.Lacks e) (h : t.rename p q = .ok t') : t'.Lacks e := by
  replace h := renameTo_of_rename h
  induction h with
  | found => trivial
  | other | shadowed | const => exact ht
  | lam _ _ ih => exact lacks_lam.2 (ih (lacks_lam.1 ht))
  | app _ _ ihf iha => exact ⟨ihf ht.1, iha ht.2⟩
  | group _ ih | bind _ ih => exact ⟨ht.1, ih ht.2⟩

/-- Renaming to a name that the term does not have reads as the term does with the old name
standing for what the new one stands for. -/
theorem readIn_rename (h : t.rename p q = .ok t') (hq : q ∉ t.names) (ρ : String → Nameless κ) :
    t'.readIn ρ = t.readIn (Function.update ρ p (ρ q)) := by
  replace h := renameTo_of_rename h
  induction h generalizing ρ with
  | found => simp [readIn]
  | other hy => simp [readIn, hy]
  | shadowed b =>
    -- the binder hides the old name, so nothing below it is renamed
    rw [readIn, readIn, underBinder_update_self]
  | lam hr _ ih =>
    obtain ⟨hqr, hqb⟩ := List.ne_and_not_mem_of_not_mem_cons hq
    rw [readIn, readIn, ih hqb, underBinder_of_ne hqr, underBinder_update hr]
  | @app f f' a a' _ _ ihf iha =>
    have hqf : q ∉ f.names := fun hx => hq (List.mem_append_left _ hx)
    have hqa : q ∉ a.names := fun hx => hq (List.mem_append_right _ hx)
    rw [readIn, readIn, ihf hqf, iha hqa]
  | group _ ih => exact ih hq ρ
  | bind _ ih => rw [readIn, readIn, ih hq]
  | const => rfl

/-! ## Substitution -/

/-- Substituting `s` for `x` in a term succeeds with a result: the rules by which it can. The
supplies are those before and after. -/
inductive SubstTo (x : String) (s : Term κ) :
    Term κ → NameSupply → Term κ → NameSupply → Prop where
  | found (names : NameSupply) : SubstTo x s (var x) names s names
  | other {y : String} (hy : y ≠ x) (names : NameSupply) : SubstTo x s (var y) names (var y) names
  | shadowed (b : Term κ) (names : NameSupply) : SubstTo x s (lam x b) names (lam x b) names
  | unused {p : String} {b b' : Term κ} {names names' : NameSupply} (hp : p ≠ x)
      (hx : ¬ b.FreeIn x) (hb : SubstTo x s b names b' names') :
    SubstTo x s (lam p b) names (lam p b') names'
  | renamed {p q : String} {b b' b'' : Term κ} {names names' names'' : NameSupply} (hp : p ≠ x)
      (hx : b.FreeIn x) (hq : names.fresh = some (q, names')) (hr : b.rename p q = .ok b')
      (hb : SubstTo x s b' names' b'' names'') :
    SubstTo x s (lam p b) names (lam q b'') names''
  | app {f f' a a' : Term κ} {names names' names'' : NameSupply}
      (hf : SubstTo x s f names f' names') (ha : SubstTo x s a names' a' names'') :
    SubstTo x s (app f a) names (app f' a') names''
  | group {t t' : Term κ} {names names' : NameSupply} (ht : SubstTo x s t names t' names') :
    SubstTo x s (group t) names t' names'
  | bind {n : String} {t t' : Term κ} {names names' : NameSupply}
      (ht : SubstTo x s t names t' names') :
    SubstTo x s (bind n t) names (bind n t') names'
  | const (c : κ) (names : NameSupply) : SubstTo x s (const c) names (const c) names

variable {x : String} {s r : Term κ} {names names' : NameSupply}

/-- A substitution that succeeds does so by the rules. -/
theorem substTo_of_subst (h : subst x s t names = (.ok r, names')) :
    SubstTo x s t names r names' := by
  fun_induction subst x s t names generalizing r names' with
  | case1 y names =>
    cases h
    split
    · next hy => exact hy ▸ .found _
    · next hy => exact .other hy _
  | case2 b names =>
    cases h
    exact .shadowed _ _
  | case3 | case5 | case6 | case8 | case12 => cases h
  | case4 p b names hp hx ih =>
    obtain ⟨b', hb, rfl⟩ := map_fst_eq_ok h
    have hfree : ¬ b.FreeIn x := not_freeIn_of_isFree hx
    exact .unused hp hfree (ih hb)
  | case7 p b names hp hx q names₁ hq b₁ hr ih =>
    obtain ⟨b', hb, rfl⟩ := map_fst_eq_ok h
    exact .renamed hp ((isFree_eq_ok hx).1 rfl) hq hr (ih hb)
  | case9 f a names f' names₁ hf ihf iha =>
    obtain ⟨a', ha, rfl⟩ := map_fst_eq_ok h
    exact .app (ihf hf) (iha ha)
  | case10 t names ih => exact .group (ih h)
  | case11 n t names ih =>
    obtain ⟨t', ht, rfl⟩ := map_fst_eq_ok h
    exact .bind (ih ht)
  | case13 c names =>
    cases h
    exact .const _ _

/-- Substitution lets the supply grow. -/
theorem SubstTo.grows (h : SubstTo x s t names r names') : names.Grows names' := by
  induction h with
  | found | other | shadowed | const => exact .refl _
  | unused _ _ _ ih => exact ih
  | renamed _ _ hq _ _ ih => exact (NameSupply.grows_of_fresh hq).trans ih
  | app _ _ ihf iha => exact ihf.trans iha
  | group _ ih | bind _ ih => exact ih

/-- Renaming to a drawn name keeps a term covered. -/
theorem covers_rename {b : Term κ} (hb : names.Covers b) (hq : names.fresh = some (q, names'))
    (hr : b.rename p q = .ok t') : names'.Covers t' := by
  obtain ⟨-, rfl⟩ := NameSupply.fresh_eq_some hq
  intro y hy
  rcases mem_names_rename hr hy with rfl | hy
  · exact (NameSupply.contains_use names y y).2 (.inl rfl)
  · exact (names.grows_use q).contains y (hb y hy)

/-- The result of a substitution between covered terms is covered. -/
theorem SubstTo.covers (h : SubstTo x s t names r names') (ht : names.Covers t)
    (hs : names.Covers s) : names'.Covers r := by
  induction h with
  | found => exact hs
  | other | shadowed | const => exact ht
  | @unused p b b' names names' _ _ hb ih =>
    obtain ⟨hp, hcov⟩ := NameSupply.covers_lam.1 ht
    exact NameSupply.covers_lam.2 ⟨hb.grows.contains p hp, ih hcov hs⟩
  | @renamed p q b b' b'' names names' names'' _ _ hq hr hb ih =>
    have hcov : names'.Covers b' := covers_rename (NameSupply.covers_lam.1 ht).2 hq hr
    refine NameSupply.covers_lam.2
      ⟨hb.grows.contains q ?_, ih hcov ((NameSupply.grows_of_fresh hq).covers hs)⟩
    obtain ⟨-, rfl⟩ := NameSupply.fresh_eq_some hq
    exact (NameSupply.contains_use names q q).2 (.inl rfl)
  | @app f f' a a' names names' names'' hf ha ihf iha =>
    obtain ⟨hcf, hca⟩ := NameSupply.covers_app.1 ht
    have hf' : names'.Covers f' := ihf hcf hs
    have ha' : names''.Covers a' := iha (hf.grows.covers hca) (hf.grows.covers hs)
    exact NameSupply.covers_app.2 ⟨ha.grows.covers hf', ha'⟩
  | group _ ih | bind _ ih => exact ih ht hs

/-- Substitution brings in no kind of subterm that neither term has. -/
theorem SubstTo.lacks {e : Extra} (h : SubstTo x s t names r names') (ht : t.Lacks e)
    (hs : s.Lacks e) : r.Lacks e := by
  induction h with
  | found => exact hs
  | other | shadowed | const => exact ht
  | unused _ _ _ ih => exact ih ht
  | renamed _ _ _ hr _ ih => exact lacks_lam.2 (ih ((lacks_lam.1 ht).rename hr))
  | app _ _ ihf iha => exact ⟨ihf ht.1, iha ht.2⟩
  | group _ ih => exact ih ht.2
  | bind _ ih => exact ⟨ht.1, ih ht.2⟩

/-- The result of a substitution reads as the body does with the parameter standing for the
argument. The two terms must be covered: a drawn binder name is then new to both. -/
theorem SubstTo.readIn (h : SubstTo x s t names r names') (ht : names.Covers t)
    (hs : names.Covers s) (ρ : String → Nameless κ) :
    r.readIn ρ = t.readIn (Function.update ρ x (s.readIn ρ)) := by
  induction h generalizing ρ with
  | found => simp [Term.readIn]
  | other hy => simp [Term.readIn, hy]
  | shadowed b => rw [Term.readIn, Term.readIn, underBinder_update_self]
  | @unused p b b' names names' hp hx _ ih =>
    have hb := ih (NameSupply.covers_lam.1 ht).2 hs (underBinder p ρ)
    -- the argument may have the name of this binder, but it is not put anywhere below it
    have hbody : b.readIn (Function.update (underBinder p ρ) x (s.readIn (underBinder p ρ)))
        = b.readIn (underBinder p (Function.update ρ x (s.readIn ρ))) := by
      refine readIn_congr fun y hy => ?_
      have hyx : y ≠ x := fun hyx => hx (hyx ▸ hy)
      rcases eq_or_ne y p with rfl | hyp
      · simp [hyx]
      · simp [hyx, hyp]
    rw [Term.readIn, hb, hbody, Term.readIn]
  | @renamed p q b b' b'' names names' names'' hp hx hq hr _ ih =>
    have hcov : names.Covers b := (NameSupply.covers_lam.1 ht).2
    have hqb : q ∉ b.names := hcov.fresh_not_mem hq
    have hqs : q ∉ s.names := hs.fresh_not_mem hq
    have hqx : q ≠ x := fun hqx => hqb (hqx ▸ hx.mem_names)
    have hb := ih (covers_rename hcov hq hr) ((NameSupply.grows_of_fresh hq).covers hs)
      (underBinder q ρ)
    rw [readIn_underBinder hqs, readIn_rename hr hqb] at hb
    have hbody : b.readIn (Function.update
          (Function.update (underBinder q ρ) x (s.readIn ρ).shift) p
          (Function.update (underBinder q ρ) x (s.readIn ρ).shift q))
        = b.readIn (underBinder p (Function.update ρ x (s.readIn ρ))) := by
      refine readIn_congr fun y hy => ?_
      have hyq : y ≠ q := fun hyq => hqb (hyq ▸ hy.mem_names)
      rw [underBinder_update hp]
      rcases eq_or_ne y p with rfl | hyp
      · simp [hqx, hp]
      · rcases eq_or_ne y x with rfl | hyx
        · simp [hyp]
        · simp [hyp, hyx, hyq]
    rw [Term.readIn, hb, hbody, Term.readIn]
  | @app f f' a a' names names' names'' hf ha ihf iha =>
    obtain ⟨hcf, hca⟩ := NameSupply.covers_app.1 ht
    have hf' := ihf hcf hs ρ
    have ha' := iha (hf.grows.covers hca) (hf.grows.covers hs) ρ
    rw [Term.readIn, hf', ha', Term.readIn]
  | group _ ih => exact ih ht hs ρ
  | bind _ ih => rw [Term.readIn, ih ht hs ρ, Term.readIn]
  | const => rfl

/-! ## When substitution fails -/

/-- Without metavariables the check for a free variable gives an answer. -/
theorem exists_isFree (ht : t.Lacks .metavariable) (x : String) :
    ∃ answer, t.isFree x = .ok answer := by
  induction t with
  | var y => exact ⟨_, rfl⟩
  | lam p b ih =>
    rw [isFree]
    split
    · exact ⟨_, rfl⟩
    · exact ih ht
  | app f a ihf iha =>
    obtain ⟨answer, hf⟩ := ihf ht.1
    rw [isFree, hf]
    cases answer with
    | true => exact ⟨true, rfl⟩
    | false => exact iha ht.2
  | group t ih | bind n t ih => exact ih ht.2
  | metavar => exact absurd rfl ht
  | const => exact ⟨_, rfl⟩

/-- Without metavariables renaming gives a term. -/
theorem exists_rename (ht : t.Lacks .metavariable) (p q : String) :
    ∃ t', t.rename p q = .ok t' := by
  induction t with
  | var y => exact ⟨_, rfl⟩
  | lam r b ih =>
    rw [rename]
    split
    · exact ⟨_, rfl⟩
    · obtain ⟨b', hb⟩ := ih ht
      exact ⟨_, by rw [hb]; rfl⟩
  | app f a ihf iha =>
    obtain ⟨f', hf⟩ := ihf ht.1
    obtain ⟨a', ha⟩ := iha ht.2
    exact ⟨_, by rw [rename, hf, ha]; rfl⟩
  | group t ih | bind n t ih =>
    obtain ⟨t', ht'⟩ := ih ht.2
    exact ⟨_, by rw [rename, ht']; rfl⟩
  | metavar => exact absurd rfl ht
  | const => exact ⟨_, rfl⟩

/-- Whether subscripts are allowed is not changed by a substitution, whatever comes of it. -/
theorem subscripts_subst (x : String) (s t : Term κ) (names : NameSupply) :
    (subst x s t names).2.subscripts = names.subscripts := by
  fun_induction subst x s t names with
  | case1 | case2 | case3 | case5 | case12 | case13 => rfl
  | case4 _ _ _ _ _ ih | case10 _ _ ih | case11 _ _ _ ih => exact ih
  | case6 _ _ _ _ _ _ _ hq => exact (NameSupply.grows_of_fresh hq).subscripts
  | case7 _ _ _ _ _ _ _ hq _ _ ih => exact ih.trans (NameSupply.grows_of_fresh hq).subscripts
  | case8 _ _ _ _ _ hf ih =>
    rw [hf] at ih
    exact ih
  | case9 _ _ _ _ _ hf ihf iha =>
    rw [hf] at ihf
    exact iha.trans ihf

/-- Substitution in a term without metavariables fails only where no name is left. -/
theorem exhausted_of_subst {v : Violation} (h : subst x s t names = (.error v, names'))
    (ht : t.Lacks .metavariable) : (∃ k, v = .namesExhausted k) ∧ names'.fresh = none := by
  fun_induction subst x s t names with
  | case1 | case2 | case13 => cases h
  | case3 p b names hp v hx =>
    obtain ⟨answer, ha⟩ := exists_isFree (lacks_lam.1 ht) x
    rw [ha] at hx
    cases hx
  | case4 p b names hp hx ih => exact ih (map_fst_eq_error h) ht
  | case5 p b names hp hx hq =>
    cases h
    exact ⟨⟨_, rfl⟩, hq⟩
  | case6 p b names hp hx q names₁ hq v hr =>
    obtain ⟨b', hb⟩ := exists_rename (lacks_lam.1 ht) p q
    rw [hb] at hr
    cases hr
  | case7 p b names hp hx q names₁ hq b₁ hr ih =>
    exact ih (map_fst_eq_error h) ((lacks_lam.1 ht).rename hr)
  | case8 f a names v names₁ hf ih =>
    cases h
    exact ih hf ht.1
  | case9 f a names f' names₁ hf ihf iha => exact iha (map_fst_eq_error h) ht.2
  | case10 t names ih => exact ih h ht.2
  | case11 n t names ih => exact ih (map_fst_eq_error h) ht.2
  | case12 => exact absurd rfl ht

/-- Where a metavariable is missing and names are not, substitution gives a term. -/
theorem exists_subst (x : String) (s : Term κ) (ht : t.Lacks .metavariable)
    (hsub : names.subscripts = true) :
    ∃ r names', subst x s t names = (.ok r, names') := by
  rcases hout : subst x s t names with ⟨out, names'⟩
  cases out with
  | ok r => exact ⟨r, names', rfl⟩
  | error v =>
    have hkept := subscripts_subst x s t names
    rw [hout, hsub] at hkept
    obtain ⟨q, hq⟩ := NameSupply.exists_fresh hkept
    rw [(exhausted_of_subst hout ht).2] at hq
    cases hq

end Term

end NormalOrder
