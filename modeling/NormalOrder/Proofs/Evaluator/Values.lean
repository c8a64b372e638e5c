import NormalOrder.Proofs.Evaluator.Alpha
import NormalOrder.Proofs.Evaluator.Expansion
import NormalOrder.Proofs.Nameless.Head

/-!
# Values of terms with references

A term without bindings whose references all have values is evaluated to the normal form of the term
with the values in their places, and to nothing else (`gives_iff_reduces`). So an equation between
nameless terms in which only head redexes are contracted is an equation between the outcomes of
evaluations (`interchangeable_of_headReduces`), and a reduction to a normal term says to what a term is
evaluated (`comesTo_of_reduces`). Where the values are closed both hold of terms that are written in any
way: with more or fewer parentheses, and with other names for their parameters.

The values are put in as they are stored, and their names are marked with those of the term
(`expandIn_splice`). Expansion goes on in them and comes to an end there, because no value of an
environment that calls have left refers to a name: if its definition did, even to its own name, the older
value stands in its place (`expand_exact`).
-/

namespace NormalOrder

open Nameless

variable {κ : Type} {t v w : Term κ} {env : OrderedMap String (Term κ)}

namespace Term

/-- No value is put into a term without metavariables. -/
theorem splice_eq_self (h : t.Lacks .metavariable) : t.splice env = t := by
  induction t with
  | var | const => rfl
  | lam p b ih => rw [splice, ih (lacks_lam.1 h)]
  | app f a ihf iha => rw [splice, ihf h.1, iha h.2]
  | group t ih | bind n t ih => rw [splice, ih h.2]
  | metavar => exact absurd rfl h

/-- Every metavariable of a term has a value. -/
def HasValues (env : OrderedMap String (Term κ)) : Term κ → Prop
  | var _ | const _ => True
  | lam _ b => b.HasValues env
  | app f a => f.HasValues env ∧ a.HasValues env
  | group t => t.HasValues env
  | bind _ t => t.HasValues env
  | metavar n _ => (env.get? n).isSome

/-- A term without metavariables needs no values. -/
theorem hasValues_of_lacks (h : t.Lacks .metavariable) : t.HasValues env := by
  induction t with
  | var | const => trivial
  | lam p b ih => exact ih (lacks_lam.1 h)
  | app f a ihf iha => exact ⟨ihf h.1, iha h.2⟩
  | group t ih | bind n t ih => exact ih h.2
  | metavar => exact absurd rfl h

end Term

/-- No value of an environment has a free variable. -/
def OrderedMap.HoldsClosed (env : OrderedMap String (Term κ)) : Prop :=
  ∀ n v, env.get? n = some v → ∀ x, ¬ v.FreeIn x

namespace Evaluator

/-- An evaluator whose evaluations end only in values, unless they do not end: it holds normal terms,
its names never run out and its budget has no limit. -/
structure Unlimited (m : Evaluator κ) : Prop where
  normal : m.environment.HoldsNormal
  subscripts : m.names.subscripts = true
  budget : m.budget = .unbounded

/-- A term that has at most references beside what the λ-calculus has, and values for all of them. -/
structure Valued (t : Term κ) (m : Evaluator κ) : Prop where
  binding : t.Lacks .binding
  constant : t.Lacks .constant
  values : t.HasValues m.environment

variable {m : Evaluator κ} {f a : Term κ} {u : Nameless κ}

/-- A plain term needs no values. -/
theorem valued_of_plain (ht : t.Plain) : Valued t m :=
  ⟨ht.binding, ht.constant, Term.hasValues_of_lacks ht.metavariable⟩

/-- An application has values for its references if its parts have. -/
theorem Valued.app (hf : Valued f m) (ha : Valued a m) : Valued (.app f a) m :=
  ⟨⟨hf.binding, ha.binding⟩, ⟨hf.constant, ha.constant⟩, ⟨hf.values, ha.values⟩⟩

variable [Shown κ]

/-- The evaluation of `t` comes to an end and gives `v`. -/
def Gives (m : Evaluator κ) (t v : Term κ) : Prop := ∃ bound, (evaluate bound t m).outcome = .ok v

/-- An evaluation gives one value only. -/
theorem Gives.unique (h : Gives m t v) (h' : Gives m t w) : v = w := by
  obtain ⟨bound, hv⟩ := h
  obtain ⟨bound', hw⟩ := h'
  have hadd : evaluate (bound + bound') t m = evaluate bound t m :=
    evaluate_add (by rw [hv]; exact nofun) bound'
  have hadd' : evaluate (bound' + bound) t m = evaluate bound' t m :=
    evaluate_add (by rw [hw]; exact nofun) bound
  rw [Nat.add_comm, hadd] at hadd'
  rw [hadd', hw] at hv
  exact (Except.ok.inj hv).symm

/-! ## The values put in -/

/-- Where all metavariables have values, expansion puts them in and marks the names of what that gives. -/
theorem expandIn_splice (h : t.HasValues env) (hc : t.Lacks .constant) (names : NameSupply) :
    expandIn env t names = (.ok (t.splice env), names.useAll (t.splice env).names) := by
  induction t generalizing names with
  | var x => rfl
  | lam p b ih =>
    rw [expandIn, ih h (Term.lacks_lam.1 hc)]
    rfl
  | app f a ihf iha =>
    rw [expandIn, ihf h.1 hc.1]
    simp only [iha h.2 hc.2, Term.splice, Term.names, NameSupply.useAll_append]
    rfl
  | group t ih | bind n t ih =>
    rw [expandIn, ih h hc.2]
    rfl
  | metavar n l =>
    obtain ⟨v, hv⟩ := Option.isSome_iff_exists.1 h
    rw [expandIn, Term.splice, hv]
    rfl
  | const => exact absurd rfl hc

/-- Where the environment is one that calls have left and all metavariables have values, expansion comes
to an end, also in the values, with the term that has these in place, and to no other. There is no
metavariable left in it, nothing is bound, and the names in use are those that were and those of the term
that it gives. -/
theorem expand_exact {o : Options} {calls : List (Call κ)}
    (hm : m.environment = (after o calls).environment) (ht : t.HasValues m.environment)
    (hc : t.Lacks .constant) :
    expand t m
        = (.ok (t.splice m.environment),
          { m with names := m.names.useAll (t.splice m.environment).names }) ∧
      (∀ r names, Expands m.environment t m.names r names ↔
        r = .ok (t.splice m.environment) ∧
          names = m.names.useAll (t.splice m.environment).names) ∧
      (t.splice m.environment).Lacks .metavariable ∧
      ∀ x, (m.names.useAll (t.splice m.environment).names).contains x = true ↔
        x ∈ (t.splice m.environment).names ∨ m.names.contains x = true := by
  have henv : m.environment.HoldsNormal := hm ▸ holdsNormal_after o calls
  have hx := expandIn_splice ht hc m.names
  refine ⟨by rw [expand, hx], fun r names => ?_, (expanded_expandIn henv hx).metavariable,
    NameSupply.contains_useAll _ _⟩
  rw [expands_iff henv, hx, Prod.mk.injEq, eq_comm, eq_comm (a := names)]

/-- After `A <- y` and `A <- A x` a reference to `A` under a binder of `y` is expanded to `y x`, and the
names in use are then `x` and `y`. -/
theorem expand_exact_redefined :
    ∃ m m' : Evaluator Empty,
      m = (after {} [.evaluate 1 (.bind "A" (.var "y")),
        .evaluate 1 (.bind "A" (.app (.metavar "A" none) (.var "x")))]).restart ∧
      (m.environment.get? "A").isSome = true ∧
      expand (.lam "y" (.metavar "A" none)) m = (.ok (.lam "y" (.app (.var "y") (.var "x"))), m') ∧
      m'.names.toList = ["x", "y"] := by
  let m : Evaluator Empty := (after {} [.evaluate 1 (.bind "A" (.var "y")),
    .evaluate 1 (.bind "A" (.app (.metavar "A" none) (.var "x")))]).restart
  have hA : (m.environment.get? "A").isSome = true := by cbv
  have hsplice : Term.splice m.environment (.lam "y" (.metavar "A" none))
      = .lam "y" (.app (.var "y") (.var "x")) := by cbv
  have hx := expand_exact (m := m) (t := .lam "y" (.metavar "A" none)) rfl hA (Term.lacks_constant _)
  rw [hsplice] at hx
  exact ⟨m, _, rfl, hA, hx.1, by cbv⟩

/-- Expansion makes a term with values for all its references ready to be reduced. -/
theorem Valued.exists_expand (ht : Valued t m) (hm : Unlimited m) :
    ∃ m', expand t m.restart = (.ok (t.splice m.environment), m') ∧
      Ready (t.splice m.environment) m' ∧ m'.budget = .unbounded := by
  have hx := expandIn_splice ht.values ht.constant m.restart.names
  obtain ⟨hg, hcov⟩ := covers_expandIn hx
  have hexp := expanded_expandIn hm.normal hx
  have hb := kept_expandIn (kept_lacks .binding) (fun n v hv => (hm.normal n v hv).lacks _)
    ht.binding hx
  refine ⟨{ m.restart with names := m.restart.names.useAll (t.splice m.environment).names }, ?_,
    ⟨⟨hb, hexp.metavariable, hexp.constant⟩, hcov, hg.subscripts.trans hm.subscripts⟩, hm.budget⟩
  rw [expand]
  exact congrArg (fun out => (out.1, { m.restart with names := out.2 })) hx

/-- What a term is evaluated to is the normal form that it has with the values in place. -/
theorem Gives.reduces (h : Gives m t v) (ht : Valued t m) (hm : Unlimited m) :
    Reduces (t.splice m.environment).nameless v.nameless ∧ v.nameless.Normal := by
  obtain ⟨bound, hv⟩ := h
  obtain ⟨m', hx, hready, -⟩ := ht.exists_expand hm
  rw [evaluate, hx] at hv
  have hrun := runTo_of_outcome hv
  obtain ⟨k, -, hs⟩ := hrun.leftmostIn hready hv (ρ := .free) fun _ => trivial
  rw [Term.nameless_eq_readIn, Term.nameless_eq_readIn]
  exact ⟨hs.reduces, (hrun.normal_value hv).readIn fun _ => trivial⟩

/-- A term that has a normal form with the values in place is evaluated to it. -/
theorem gives_of_reduces (ht : Valued t m) (hm : Unlimited m)
    (hred : Reduces (t.splice m.environment).nameless u) (hu : u.Normal) :
    ∃ v, Gives m t v ∧ v.nameless = u := by
  obtain ⟨k, hs⟩ := hred.leftmostIn hu
  obtain ⟨m', hx, hready, hb⟩ := ht.exists_expand hm
  rw [Term.nameless_eq_readIn] at hs
  obtain ⟨run, v, hrun, hv, hvu, -⟩ := exists_runTo hs hu hready hb fun _ => trivial
  obtain ⟨bound, hbound⟩ := hrun.reduce_add
  refine ⟨v, ⟨bound, ?_⟩, v.nameless_eq_readIn.trans hvu⟩
  rw [evaluate, hx, Run.outcome_cons, ← hv, ← hbound 0, Nat.add_zero]

/-- A term whose references have values is evaluated to the normal form that it has with the values in
place, and to nothing else. -/
theorem gives_iff_reduces (ht : Valued t m) (hm : Unlimited m) :
    (∃ v, Gives m t v ∧ v.nameless = u) ↔
      Reduces (t.splice m.environment).nameless u ∧ u.Normal := by
  refine ⟨?_, fun ⟨hred, hu⟩ => gives_of_reduces ht hm hred hu⟩
  rintro ⟨v, hv, rfl⟩
  exact hv.reduces ht hm

/-! ## Expressions written in different ways -/

section

variable {m : Evaluator Empty} {s t w : Expr} {u : Nameless Empty}

/-- Where the values are closed, an expression that is written differently comes to the same. -/
theorem gives_rewritten (hm : Unlimited m) (hclosed : m.environment.HoldsClosed)
    (hst : s.nameless = t.nameless) :
    (∃ v, Gives m s v ∧ v.nameless = u) ↔ ∃ v, Gives m t v ∧ v.nameless = u := by
  have hgives : ∀ {s t : Expr}, s.nameless = t.nameless →
      (∃ v, Gives m s v ∧ v.nameless = u) → ∃ v, Gives m t v ∧ v.nameless = u := by
    rintro s t hst ⟨v, ⟨bound, hv⟩, rfl⟩
    have hcap := Term.capturedAlike_of_closed hclosed (s.references []) (t.references [])
    rcases evaluate_alike bound hm.normal hm.subscripts s.lacks_constant t.lacks_constant hst hcap
      with ⟨v', w, hv', hw, hvw⟩ | ⟨e, e', he, -⟩
    · cases hv.symm.trans hv'
      exact ⟨w, ⟨bound, hw⟩, hvw.symm⟩
    · cases hv.symm.trans he
  exact ⟨hgives hst, hgives hst.symm⟩

/-- However `s` and `t` are written: an evaluation of one gives a value if an evaluation of the other
does, and the two values are α-equivalent. -/
def Interchangeable (m : Evaluator Empty) (s t : Expr) : Prop :=
  ∀ s' t' : Expr, s'.alphaEquals s = true → t'.alphaEquals t = true →
    ((∃ v, Gives m s' v) ↔ ∃ w, Gives m t' w) ∧
      ∀ v w, Gives m s' v → Gives m t' w → v.alphaEquals w = true

/-- However `s` and `w` are written: an evaluation of `s` gives `w`, from some bound on. -/
def ComesTo (m : Evaluator Empty) (s w : Expr) : Prop :=
  ∀ s' : Expr, s'.alphaEquals s = true →
    ∃ v bound, v.alphaEquals w = true ∧ ∀ k, (evaluate (bound + k) s' m).outcome = .ok v

/-- Expressions that are the same up to head steps, with the values in place, come to the same. -/
theorem interchangeable_of_headReduces (hm : Unlimited m) (hclosed : m.environment.HoldsClosed)
    (hs : Valued s m) (ht : Valued t m)
    (h : HeadReduces (s.splice m.environment).nameless (t.splice m.environment).nameless) :
    Interchangeable m s t := by
  intro s' t' hs' ht'
  rw [Term.alphaEquals_iff_nameless] at hs' ht'
  have hiff : ∀ u, (∃ v, Gives m s' v ∧ v.nameless = u) ↔ ∃ w, Gives m t' w ∧ w.nameless = u := by
    intro u
    rw [gives_rewritten hm hclosed hs', gives_rewritten hm hclosed ht', gives_iff_reduces hs hm,
      gives_iff_reduces ht hm]
    exact and_congr_left h.reduces_iff
  refine ⟨⟨?_, ?_⟩, ?_⟩
  · rintro ⟨v, hv⟩
    obtain ⟨w, hw, -⟩ := (hiff _).1 ⟨v, hv, rfl⟩
    exact ⟨w, hw⟩
  · rintro ⟨w, hw⟩
    obtain ⟨v, hv, -⟩ := (hiff _).2 ⟨w, hw, rfl⟩
    exact ⟨v, hv⟩
  · intro v w hv hw
    obtain ⟨w', hw', hread⟩ := (hiff _).1 ⟨v, hv, rfl⟩
    rw [Term.alphaEquals_iff_nameless, hw.unique hw', hread]

/-- An expression that reduces to a normal one, with the values in place, comes to that. -/
theorem comesTo_of_reduces (hm : Unlimited m) (hclosed : m.environment.HoldsClosed)
    (hs : Valued s m) (hred : Reduces (s.splice m.environment).nameless w.nameless)
    (hw : w.Normal) : ComesTo m s w := by
  intro s' hs'
  rw [Term.alphaEquals_iff_nameless] at hs'
  have hnormal : w.nameless.Normal := by
    rw [Term.nameless_eq_readIn]
    exact hw.readIn fun _ => trivial
  have hgives := gives_of_reduces hs hm hred hnormal
  obtain ⟨v, ⟨bound, hv⟩, hread⟩ := (gives_rewritten hm hclosed hs').2 hgives
  refine ⟨v, bound, Term.alphaEquals_iff_nameless.2 hread, fun k => ?_⟩
  rw [evaluate_add (by rw [hv]; exact nofun), hv]

end

end Evaluator

end NormalOrder
