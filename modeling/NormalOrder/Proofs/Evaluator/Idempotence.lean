import Mathlib
import NormalOrder.Proofs.Evaluator.BigStep.ToSteps

/-!
# Reduction of what is reduced

A term that reduction gives back as it is, at once and in whatever state, without a trace and without
a change to that state, is `Fixed`. These are the normal terms (`fixed_iff_normal`). Seen from their
parts they are the terms built from variables, abstractions and applications in which no function is an
abstraction (`normal_iff`); evaluation in large steps takes the spine of such an application apart and
builds it again, and the arguments on the way. As reduction gives normal terms only, a second reduction
has nothing to do (`reduce_idempotent`).
-/

namespace NormalOrder

variable {κ : Type}

namespace Term

/-- No abstraction is applied in a normal term. -/
theorem Normal.not_isLam_of_app {t f a : Term κ} (h : t.Normal) (happ : app f a ∈ t.subterms) :
    ¬ f.IsLam := by
  induction t with
  | var => cases List.mem_singleton.1 happ
  | lam p b ih =>
    rcases List.mem_cons.1 happ with ⟨⟨⟩⟩ | happ
    exact ih h happ
  | app g c ihg ihc =>
    obtain ⟨hl, hg, hc⟩ := h
    rcases List.mem_cons.1 happ with ⟨⟨⟩⟩ | happ
    · exact hl
    · exact (List.mem_append.1 happ).elim (ihg hg) (ihc hc)
  | group | bind | metavar | const => exact h.elim

/-- A term is normal if it has none of the subterms that the λ-calculus does not have and applies no
abstraction. -/
theorem normal_iff {t : Term κ} :
    t.Normal ↔ (∀ e, t.Lacks e) ∧ ∀ f a, app f a ∈ t.subterms → ¬ f.IsLam := by
  refine ⟨fun h => ⟨h.lacks, fun f a => h.not_isLam_of_app⟩, ?_⟩
  rintro ⟨hlacks, happ⟩
  induction t with
  | var => trivial
  | lam p b ih => exact ih hlacks fun f a hmem => happ f a (.tail _ hmem)
  | app g c ihg ihc =>
    have hg := ihg (fun e => (hlacks e).1) fun f a hmem => happ f a (.tail _ (List.mem_append_left _ hmem))
    have hc := ihc (fun e => (hlacks e).2) fun f a hmem => happ f a (.tail _ (List.mem_append_right _ hmem))
    exact ⟨happ g c (.head _), hg, hc⟩
  | group => exact absurd rfl (hlacks .grouping).1
  | bind => exact absurd rfl (hlacks .binding).1
  | metavar => exact absurd rfl (hlacks .metavariable)
  | const => exact absurd rfl (hlacks .constant)

end Term

namespace Evaluator

variable [Shown κ] {v : Term κ}

/-- In every state reduction gives the term back, traces nothing and leaves the state as it was. Evaluation
in large steps does so too, and does nothing else. -/
structure Fixed (v : Term κ) : Prop where
  reduce (bound : Nat) (m : Evaluator κ) : Evaluator.reduce (bound + 1) v m = ⟨.ok v, [], m⟩
  evaluates (m : Evaluator κ) (run : Run κ) : Evaluates .full v m run ↔ run = ⟨.ok v, [], m⟩

/-- Reduction gives normal terms back. -/
theorem fixed_of_normal (h : v.Normal) : Fixed v where
  reduce bound m := by rw [Evaluator.reduce, (stepTo_normal h m).step_eq]
  evaluates m run := by
    refine ⟨fun hrun => hrun.eq_of_normal h, ?_⟩
    rintro rfl
    exact evaluates_normal h m

/-- Reduction gives back the normal terms and no others. -/
theorem fixed_iff_normal : Fixed v ↔ v.Normal := by
  refine ⟨fun h => ?_, fixed_of_normal⟩
  have hv : (Evaluator.reduce 1 v (blank {})).outcome = .ok v := by rw [h.reduce 0]
  exact normal_reduce hv

/-- Reduction gives back the terms without parentheses, bindings, metavariables and constants that apply
no abstraction, and no others. Whatever it has given it gives back. -/
theorem reduce_idempotent :
    (∀ v : Term κ,
        Fixed v ↔ (∀ e, v.Lacks e) ∧ ∀ f a, .app f a ∈ v.subterms → ¬ f.IsLam) ∧
      ∀ (bound : Nat) (t : Term κ) (m : Evaluator κ) (v : Term κ),
        (Evaluator.reduce bound t m).outcome = .ok v → Fixed v :=
  ⟨fun _ => fixed_iff_normal.trans Term.normal_iff, fun _ _ _ _ h => fixed_of_normal (normal_reduce h)⟩

/-- A value with an abstraction among its arguments is given back by an evaluator that has counted more
contractions than its budget allows. -/
theorem reduce_idempotent_spine :
    (Evaluator.reduce 2
        (.app (.lam "f" (.app (.app (.var "f") (.var "z")) (.lam "x" (.var "x")))) (.var "g"))
        (blank {} : Evaluator Empty)).outcome
      = .ok (.app (.app (.var "g") (.var "z")) (.lam "x" (.var "x"))) ∧
    Evaluator.reduce 1 (.app (.app (.var "g") (.var "z")) (.lam "x" (.var "x")))
        ({ blank {} with budget := .atMost 0, steps := 1 } : Evaluator Empty)
      = ⟨.ok (.app (.app (.var "g") (.var "z")) (.lam "x" (.var "x"))), [],
          { blank {} with budget := .atMost 0, steps := 1 }⟩ := by
  have hv : (Evaluator.reduce 2
        (.app (.lam "f" (.app (.app (.var "f") (.var "z")) (.lam "x" (.var "x")))) (.var "g"))
        (blank {} : Evaluator Empty)).outcome
      = .ok (.app (.app (.var "g") (.var "z")) (.lam "x" (.var "x"))) := by cbv
  exact ⟨hv, (reduce_idempotent.2 _ _ _ _ hv).reduce 0 _⟩

end Evaluator

end NormalOrder
