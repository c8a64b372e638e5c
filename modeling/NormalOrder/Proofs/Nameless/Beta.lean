import Mathlib.Logic.Relation
import NormalOrder.Proofs.Nameless

/-!
# β-reduction

`Beta` contracts one redex anywhere in a term and `Reduces` any number of them, one after another.
A term is `Normal` if it has no redex; `normal_app` says what that means for an application.
`Leftmost` contracts the redex that begins furthest to the left, which of two nested redexes is the
outer one. It is a function of the term (`Leftmost.unique`), it is a β-step (`Leftmost.beta`), and
there is one unless the term is normal (`normal_iff_leftmost`). `LeftmostIn k` counts its steps.
-/

namespace NormalOrder.Nameless

variable {κ : Type}

/-- One redex is contracted, anywhere in the term. -/
inductive Beta : Nameless κ → Nameless κ → Prop where
  | redex (b a : Nameless κ) : Beta (app (lam b) a) (b.instantiate a)
  | lam {b b' : Nameless κ} (h : Beta b b') : Beta (lam b) (lam b')
  | function {f f' a : Nameless κ} (h : Beta f f') : Beta (app f a) (app f' a)
  | argument {f a a' : Nameless κ} (h : Beta a a') : Beta (app f a) (app f a')
  | value {n : String} {t t' : Nameless κ} (h : Beta t t') : Beta (bind n t) (bind n t')

/-- Any number of β-steps, in any order. -/
def Reduces : Nameless κ → Nameless κ → Prop := Relation.ReflTransGen Beta

/-- A term without a redex. -/
def Normal (t : Nameless κ) : Prop := ∀ u, ¬ Beta t u

/-- Whether a term is an abstraction. -/
def IsLam : Nameless κ → Prop
  | lam _ => True
  | _ => False

/-- The leftmost outermost redex is contracted. -/
inductive Leftmost : Nameless κ → Nameless κ → Prop where
  | redex (b a : Nameless κ) : Leftmost (app (lam b) a) (b.instantiate a)
  | lam {b b' : Nameless κ} (h : Leftmost b b') : Leftmost (lam b) (lam b')
  | function {f f' a : Nameless κ} (hf : ¬ f.IsLam) (h : Leftmost f f') :
    Leftmost (app f a) (app f' a)
  | argument {f a a' : Nameless κ} (hf : ¬ f.IsLam) (hn : f.Normal) (h : Leftmost a a') :
    Leftmost (app f a) (app f a')
  | value {n : String} {t t' : Nameless κ} (h : Leftmost t t') : Leftmost (bind n t) (bind n t')

/-- Exactly `k` steps, each of which contracts the leftmost outermost redex. -/
inductive LeftmostIn : Nat → Nameless κ → Nameless κ → Prop where
  | refl (t : Nameless κ) : LeftmostIn 0 t t
  | head {k : Nat} {t u v : Nameless κ} (h : Leftmost t u) (hs : LeftmostIn k u v) :
    LeftmostIn (k + 1) t v

variable {t u v b f a : Nameless κ} {n : String}

/-! ## Normal terms -/

/-- Contracting under an abstraction leaves an abstraction. -/
theorem Beta.isLam (h : Beta t u) (ht : t.IsLam) : u.IsLam := by
  cases h with
  | lam => trivial
  | redex | function | argument | value => exact ht.elim

/-- An abstraction is normal if its body is. -/
theorem normal_lam : (lam b).Normal ↔ b.Normal := by
  refine ⟨fun h u hu => h _ (.lam hu), fun h u hu => ?_⟩
  cases hu with
  | lam hb => exact h _ hb

/-- An application is normal if its parts are and its function is no abstraction. -/
theorem normal_app : (app f a).Normal ↔ ¬ f.IsLam ∧ f.Normal ∧ a.Normal := by
  refine ⟨fun h => ⟨fun hf => ?_, fun u hu => h _ (.function hu), fun u hu => h _ (.argument hu)⟩,
    fun ⟨hl, hf, ha⟩ u hu => ?_⟩
  · cases f with
    | lam b => exact h _ (.redex b a)
    | bound | free | app | bind | metavar | const => exact hf
  · cases hu with
    | redex b => exact hl trivial
    | function h => exact hf _ h
    | argument h => exact ha _ h

/-- A binding is normal if its value is. -/
theorem normal_bind : (bind n t).Normal ↔ t.Normal := by
  refine ⟨fun h u hu => h _ (.value hu), fun h u hu => ?_⟩
  cases hu with
  | value ht => exact h _ ht

/-- A free variable is normal. -/
theorem normal_free (x : String) : (free x : Nameless κ).Normal := fun _ h => nomatch h

/-! ## The leftmost outermost redex -/

/-- Contracting the leftmost redex is a β-step. -/
theorem Leftmost.beta (h : Leftmost t u) : Beta t u := by
  induction h with
  | redex b a => exact .redex b a
  | lam _ ih => exact .lam ih
  | function _ _ ih => exact .function ih
  | argument _ _ _ ih => exact .argument ih
  | value _ ih => exact .value ih

/-- There is one leftmost redex only. -/
theorem Leftmost.unique (h : Leftmost t u) (h' : Leftmost t v) : u = v := by
  induction h generalizing v with
  | redex b a =>
    cases h' with
    | redex => rfl
    | function hf | argument hf => exact absurd trivial hf
  | lam _ ih =>
    cases h' with
    | lam h' => rw [ih h']
  | function hf h ih =>
    cases h' with
    | redex => exact absurd trivial hf
    | function _ h' => rw [ih h']
    | argument _ hn => exact absurd h.beta (hn _)
  | argument hf hn _ ih =>
    cases h' with
    | redex => exact absurd trivial hf
    | function _ h' => exact absurd h'.beta (hn _)
    | argument _ _ h' => rw [ih h']
  | value _ ih =>
    cases h' with
    | value h' => rw [ih h']

/-- A term that has a redex has a leftmost one. -/
theorem normal_iff_leftmost : t.Normal ↔ ∀ u, ¬ Leftmost t u := by
  refine ⟨fun h u hu => h u hu.beta, fun h => ?_⟩
  induction t with
  | bound | free | metavar | const => exact fun _ h => nomatch h
  | lam b ih => exact normal_lam.2 (ih fun u hu => h _ (.lam hu))
  | app f a ihf iha =>
    have hl : ¬ f.IsLam := by
      intro hf
      cases f with
      | lam b => exact h _ (.redex b a)
      | bound | free | app | bind | metavar | const => exact hf
    have hf : f.Normal := ihf fun u hu => h _ (.function hl hu)
    exact normal_app.2 ⟨hl, hf, iha fun u hu => h _ (.argument hl hf hu)⟩
  | bind n t ih => exact normal_bind.2 (ih fun u hu => h _ (.value hu))

end NormalOrder.Nameless
