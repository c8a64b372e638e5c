import NormalOrder.Proofs.Evaluator.Completeness
import NormalOrder.Proofs.Prelude.Values

/-!
# The laws of the combinators

The combinators of the prelude, the pairs included, do with all arguments what they are meant to do
(`evaluate_combinators`): an application of one of them comes to the same as its meaning. The arguments
may be open and may have any names, also those of the parameters in the prelude, and an argument that
the meaning does not mention need not have a normal form.

The laws hold because head steps lead from each application to its meaning (`headReduces_of_law`): no
argument is looked at on the way.
-/

namespace NormalOrder.Evaluator

open Term Nameless

/-! ## Head steps of the combinators -/

section

variable {κ : Type}

/-- The function that pairs two terms: it hands both to a third. -/
def pairing : Nameless κ := lams 3 (.app (.app (bound 0) (bound 2)) (bound 1))

/-- A pair that is given a selector hands both its parts to it. -/
theorem headReduces_pairing (a b s : Nameless κ) :
    HeadReduces (.app (.app (.app pairing a) b) s) (.app (.app s a) b) :=
  headReduces_apps (.app (.app (bound 0) (bound 2)) (bound 1)) [s, b, a]

/-- A function that gives its argument the selector `s` hands the parts of a pair to `s`. -/
theorem headReduces_select (s a b : Nameless κ) :
    HeadReduces (.app (.lam (.app (bound 0) s)) (.app (.app pairing a) b))
      (.app (.app (s.instantiate (.app (.app pairing a) b)) a) b) :=
  .head (.redex _ _) (headReduces_pairing a b _)

end

/-! ## The laws -/

/-- The laws of the combinators of the prelude for the arguments `a`, `b` and `c`: each application
with what it means. -/
def combinatorLaws (a b c : Expr) : List (Expr × Expr) := [
  (.app (ref "I") a, a),
  (.app (ref "M") a, .app a a),
  (.app (.app (ref "K") a) b, a),
  (.app (.app (ref "KI") a) b, b),
  (.app (.app (.app (ref "B") a) b) c, .app a (.app b c)),
  (.app (.app (.app (ref "C") a) b) c, .app (.app a c) b),
  (.app (.app (.app (ref "S") a) b) c, .app (.app a c) (.app b c)),
  (.app (ref "FST") (.app (.app (ref "PAIR") a) b), a),
  (.app (ref "SND") (.app (.app (ref "PAIR") a) b), b)]

variable {a b c : Expr} {o : Options}

/-- With the values of the prelude in place, head steps lead from each application to its meaning. -/
theorem headReduces_of_law (ha : a.Plain) (hb : b.Plain) (hc : c.Plain)
    (ho : o.withPrelude = true) : ∀ law ∈ combinatorLaws a b c,
      HeadReduces (law.1.splice (new o).environment).nameless
        (law.2.splice (new o).environment).nameless := by
  simp only [combinatorLaws, List.forall_mem_cons, ref, splice, get?_new ho,
    splice_eq_self ha.metavariable, splice_eq_self hb.metavariable, splice_eq_self hc.metavariable]
  refine ⟨?_, ?_, ?_, ?_, ?_, ?_, ?_, ?_, ?_, List.forall_mem_nil _⟩
  · exact headReduces_apps (bound 0) [a.nameless]
  · exact headReduces_apps (.app (bound 0) (bound 0)) [a.nameless]
  · exact headReduces_apps (bound 1) [b.nameless, a.nameless]
  · exact headReduces_apps (bound 0) [b.nameless, a.nameless]
  · exact headReduces_apps (.app (bound 2) (.app (bound 1) (bound 0)))
      [c.nameless, b.nameless, a.nameless]
  · exact headReduces_apps (.app (.app (bound 2) (bound 0)) (bound 1))
      [c.nameless, b.nameless, a.nameless]
  · exact headReduces_apps (.app (.app (bound 2) (bound 0)) (.app (bound 1) (bound 0)))
      [c.nameless, b.nameless, a.nameless]
  · exact (headReduces_select (lams 2 (bound 1)) a.nameless b.nameless).trans
      (headReduces_apps (bound 1) [b.nameless, a.nameless])
  · exact (headReduces_select (lams 2 (bound 0)) a.nameless b.nameless).trans
      (headReduces_apps (bound 0) [b.nameless, a.nameless])

/-- All references of the laws have values in a new evaluator. -/
theorem valued_of_law (ha : a.Plain) (hb : b.Plain) (hc : c.Plain) (ho : o.withPrelude = true) :
    ∀ law ∈ combinatorLaws a b c, Valued law.1 (new o) ∧ Valued law.2 (new o) := by
  have va : Valued a (new o) := valued_of_plain ha
  have vb : Valued b (new o) := valued_of_plain hb
  have vc : Valued c (new o) := valued_of_plain hc
  have vpair : Valued (.app (.app (ref "PAIR") a) b) (new o) := ((valued_ref ho rfl).app va).app vb
  simp only [combinatorLaws, List.forall_mem_cons]
  refine ⟨⟨?_, va⟩, ⟨?_, va.app va⟩, ⟨?_, va⟩, ⟨?_, vb⟩, ⟨?_, va.app (vb.app vc)⟩,
    ⟨?_, (va.app vc).app vb⟩, ⟨?_, (va.app vc).app (vb.app vc)⟩, ⟨?_, va⟩, ⟨?_, vb⟩, nofun⟩
  · exact (valued_ref ho rfl).app va
  · exact (valued_ref ho rfl).app va
  · exact ((valued_ref ho rfl).app va).app vb
  · exact ((valued_ref ho rfl).app va).app vb
  · exact (((valued_ref ho rfl).app va).app vb).app vc
  · exact (((valued_ref ho rfl).app va).app vb).app vc
  · exact (((valued_ref ho rfl).app va).app vb).app vc
  · exact (valued_ref ho rfl).app vpair
  · exact (valued_ref ho rfl).app vpair

/-- In a new evaluator whose names do not run out, an application of a combinator and its meaning come
to the same, however the two are written: an evaluation of one gives a value if an evaluation of the
other does, and the values are α-equivalent. -/
theorem evaluate_combinators (ha : a.Plain) (hb : b.Plain) (hc : c.Plain) :
    ∀ law ∈ combinatorLaws a b c, Interchangeable (new { subscripts := true }) law.1 law.2 := by
  intro law hlaw
  have ho : ({ subscripts := true } : Options).withPrelude = true := rfl
  obtain ⟨hs, ht⟩ := valued_of_law ha hb hc ho law hlaw
  have hsteps := headReduces_of_law ha hb hc ho law hlaw
  exact interchangeable_of_headReduces (unlimited_new rfl rfl) (holdsClosed_new ho) hs ht hsteps

/-- The first part of a pair is found also if the second has no normal form, and if it is a variable
that the prelude has for a parameter: `FST (PAIR y ((\x.x x) (\x.x x)))` comes to `y`. -/
theorem evaluate_combinators_discarded :
    ∃ s : Expr, Term.parse "FST (PAIR y ((\\x.x x) (\\x.x x)))" = .ok s ∧ (var "y" : Expr).Plain ∧
      (loop : Expr).Plain ∧ (∀ u, Reduces (loop : Expr).nameless u → ¬ u.Normal) ∧
      ∃ v, Gives (new { subscripts := true }) s v ∧ v.alphaEquals (var "y") = true := by
  let twice : Expr := .group (lam "x" (app (var "x") (var "x")))
  let s : Expr := app (metavar "FST" (some ⟨1, 1⟩))
    (group (app (app (metavar "PAIR" (some ⟨1, 6⟩)) (var "y")) (group (app twice twice))))
  have hy : (var "y" : Expr).Plain := plain_expr trivial trivial
  have hgives : Gives (new { subscripts := true }) (var "y") (var "y" : Expr) := ⟨1, rfl⟩
  obtain ⟨hiff, hsame⟩ := evaluate_combinators hy plain_loop plain_loop
    (app (ref "FST") (app (app (ref "PAIR") (var "y")) loop), var "y") (by decide)
    s (var "y") (by decide) (by decide)
  obtain ⟨v, hv⟩ := hiff.2 ⟨_, hgives⟩
  exact ⟨s, by cbv, hy, plain_loop, fun u => not_normal_of_loop, v, hv, hsame v _ hv hgives⟩

end NormalOrder.Evaluator
