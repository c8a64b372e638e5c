import NormalOrder.Proofs.Nameless.Beta

/-!
# Standard reductions

A reduction is standard if it contracts the head redexes of a term first and then reduces the
parts of what it has come to, each by a standard reduction. Standard reductions absorb a β-step at
their end (`Standard.tail`), so whatever a term reduces to, it reaches by a standard reduction
(`Reduces.standard`). One that ends in a normal term contracts the leftmost redex at every step
(`Standard.leftmost`). Together this is the normalization theorem, `Reduces.leftmostIn`: a term
that has a normal form comes to it by contracting leftmost redexes.
-/

namespace NormalOrder.Nameless

variable {κ : Type}

/-! ## Head steps -/

/-- The head redex is contracted: the one that is reached by going to the function of an
application again and again. -/
inductive Head : Nameless κ → Nameless κ → Prop where
  | redex (b a : Nameless κ) : Head (app (lam b) a) (b.instantiate a)
  | function {f f' a : Nameless κ} (h : Head f f') : Head (app f a) (app f' a)

/-- The head redexes are contracted, and then the parts are reduced likewise. -/
inductive Standard : Nameless κ → Nameless κ → Prop where
  | head {t u v : Nameless κ} (h : Head t u) (hs : Standard u v) : Standard t v
  | bound (i : Nat) : Standard (bound i) (bound i)
  | free (x : String) : Standard (free x) (free x)
  | lam {b b' : Nameless κ} (hb : Standard b b') : Standard (lam b) (lam b')
  | app {f f' a a' : Nameless κ} (hf : Standard f f') (ha : Standard a a') :
    Standard (app f a) (app f' a')
  | bind (n : String) {t t' : Nameless κ} (ht : Standard t t') : Standard (bind n t) (bind n t')
  | metavar (n : String) : Standard (metavar n) (metavar n)
  | const (c : κ) : Standard (const c) (const c)

variable {t u v b f f' a : Nameless κ} {k l : Nat}

/-- Substitution keeps the head redex. -/
theorem Head.subst (h : Head t u) (σ : Nat → Nameless κ) : Head (t.subst σ) (u.subst σ) := by
  induction h with
  | redex b a =>
    rw [subst_instantiate]
    exact .redex _ _
  | function _ ih => exact .function ih

/-- A term with a head redex is no abstraction. -/
theorem Head.not_isLam (h : Head t u) : ¬ t.IsLam := by
  cases h <;> exact id

/-- The head redex is the leftmost one. -/
theorem Head.leftmost (h : Head t u) : Leftmost t u := by
  induction h with
  | redex b a => exact .redex b a
  | function h ih => exact .function h.not_isLam ih

/-! ## Standard reductions absorb a β-step -/

/-- A reduction of no steps is standard. -/
theorem Standard.refl (t : Nameless κ) : Standard t t := by
  induction t with
  | bound i => exact .bound i
  | free x => exact .free x
  | lam b ih => exact .lam ih
  | app f a ihf iha => exact .app ihf iha
  | bind n t ih => exact .bind n ih
  | metavar n => exact .metavar n
  | const c => exact .const c

/-- Renaming keeps a reduction standard. -/
theorem Standard.rename (h : Standard t u) (ξ : Nat → Nat) :
    Standard (t.rename ξ) (u.rename ξ) := by
  induction h generalizing ξ with
  | head h _ ih =>
    refine .head ?_ (ih ξ)
    rw [rename_eq_subst, rename_eq_subst]
    exact h.subst _
  | lam _ ih => exact .lam (ih _)
  | app _ _ ihf iha => exact .app (ihf ξ) (iha ξ)
  | bind n _ ih => exact .bind n (ih ξ)
  | bound | free | metavar | const => exact .refl _

/-- Substitution keeps a reduction standard, also when what is put in reduces on its way. -/
theorem Standard.subst (h : Standard t u) {σ τ : Nat → Nameless κ}
    (hσ : ∀ i, Standard (σ i) (τ i)) : Standard (t.subst σ) (u.subst τ) := by
  induction h generalizing σ τ with
  | head h _ ih => exact .head (h.subst σ) (ih hσ)
  | bound i => exact hσ i
  | lam _ ih =>
    refine .lam (ih fun i => ?_)
    cases i with
    | zero => exact .bound 0
    | succ i => exact (hσ i).rename _
  | app _ _ ihf iha => exact .app (ihf hσ) (iha hσ)
  | bind n _ ih => exact .bind n (ih hσ)
  | free | metavar | const => exact .refl _

/-- A body and its argument reduce by standard reductions: so does the instance. -/
theorem Standard.instantiate {b' a' : Nameless κ} (hb : Standard b b') (ha : Standard a a') :
    Standard (b.instantiate a) (b'.instantiate a') := by
  refine hb.subst fun i => ?_
  cases i with
  | zero => exact ha
  | succ i => exact .bound i

/-- A function that comes to an abstraction, applied: the redex that arises is contracted
before anything else. -/
theorem Standard.redex {a' : Nameless κ} (hf : Standard f (Nameless.lam b))
    (ha : Standard a a') : Standard (Nameless.app f a) (b.instantiate a') := by
  generalize hg : Nameless.lam b = g at hf
  induction hf with
  | head h _ ih => exact .head (.function h) (ih hg)
  | lam hb =>
    cases hg
    exact .head (.redex _ _) (hb.instantiate ha)
  | bound | free | app | bind | metavar | const => cases hg

/-- A β-step after a standard reduction can be made part of it. -/
theorem Standard.tail (h : Standard t u) (hb : Beta u v) : Standard t v := by
  induction h generalizing v with
  | head h _ ih => exact .head h (ih hb)
  | lam _ ih =>
    cases hb with
    | lam hb => exact .lam (ih hb)
  | app hf ha ihf iha =>
    cases hb with
    | redex b a => exact hf.redex ha
    | function hb => exact .app (ihf hb) ha
    | argument hb => exact .app hf (iha hb)
  | bind n _ ih =>
    cases hb with
    | value hb => exact .bind n (ih hb)
  | bound | free | metavar | const => cases hb

/-- Whatever a term reduces to, it reaches by a standard reduction. -/
theorem Reduces.standard (h : Reduces t u) : Standard t u := by
  induction h with
  | refl => exact .refl t
  | tail _ hb ih => exact ih.tail hb

/-! ## Standard reductions to normal terms -/

/-- Leftmost steps one after another. -/
theorem LeftmostIn.trans (h : LeftmostIn k t u) (h' : LeftmostIn l u v) :
    LeftmostIn (l + k) t v := by
  induction h with
  | refl => exact h'
  | head h _ ih => exact .head h (ih h')

/-- Leftmost steps under an abstraction. -/
theorem LeftmostIn.lam (h : LeftmostIn k b u) :
    LeftmostIn k (Nameless.lam b) (Nameless.lam u) := by
  induction h with
  | refl => exact .refl _
  | head h _ ih => exact .head (.lam h) ih

/-- Leftmost steps in the value of a binding. -/
theorem LeftmostIn.bind {n : String} (h : LeftmostIn k t u) :
    LeftmostIn k (Nameless.bind n t) (Nameless.bind n u) := by
  induction h with
  | refl => exact .refl _
  | head h _ ih => exact .head (.value h) ih

/-- Leftmost steps lead from an abstraction to an abstraction. -/
theorem LeftmostIn.isLam (h : LeftmostIn k t u) (ht : t.IsLam) : u.IsLam := by
  induction h with
  | refl => exact ht
  | head h _ ih => exact ih (h.beta.isLam ht)

/-- Leftmost steps in a function that does not become an abstraction are leftmost steps of its
application, since it was none at any time before. -/
theorem LeftmostIn.function (h : LeftmostIn k f f') (hf : ¬ f'.IsLam) :
    LeftmostIn k (Nameless.app f a) (Nameless.app f' a) := by
  induction h with
  | refl => exact .refl _
  | head h hs ih =>
    exact .head (.function (fun ht => hf (hs.isLam (h.beta.isLam ht))) h) (ih hf)

/-- Leftmost steps in the argument of a normal function that is no abstraction. -/
theorem LeftmostIn.argument (h : LeftmostIn k t u) (hf : ¬ f.IsLam) (hn : f.Normal) :
    LeftmostIn k (Nameless.app f t) (Nameless.app f u) := by
  induction h with
  | refl => exact .refl _
  | head h _ ih => exact .head (.argument hf hn h) ih

/-- A standard reduction to a normal term contracts leftmost redexes only. -/
theorem Standard.leftmost (h : Standard t u) (hu : u.Normal) : ∃ k, LeftmostIn k t u := by
  induction h with
  | head h _ ih =>
    obtain ⟨k, hk⟩ := ih hu
    exact ⟨k + 1, .head h.leftmost hk⟩
  | bound | free | metavar | const => exact ⟨0, .refl _⟩
  | lam _ ih =>
    obtain ⟨k, hk⟩ := ih (normal_lam.1 hu)
    exact ⟨k, hk.lam⟩
  | app _ _ ihf iha =>
    obtain ⟨hl, hf, ha⟩ := normal_app.1 hu
    obtain ⟨k, hk⟩ := ihf hf
    obtain ⟨l, hl'⟩ := iha ha
    exact ⟨l + k, (hk.function hl).trans (hl'.argument hl hf)⟩
  | bind n _ ih =>
    obtain ⟨k, hk⟩ := ih (normal_bind.1 hu)
    exact ⟨k, hk.bind⟩

/-- A term that reduces to a normal term in any order comes to it by contracting its leftmost
redexes. -/
theorem Reduces.leftmostIn (h : Reduces t u) (hu : u.Normal) : ∃ k, LeftmostIn k t u :=
  h.standard.leftmost hu

end NormalOrder.Nameless
