import NormalOrder.Proofs.Prelude.Values

/-!
# Arithmetic on Church numerals

The functions of the prelude for numerals compute what they are meant to, for all numbers
(`evaluate_arithmetic`). The numeral `n` applies a function `n` times (`reduces_church`), so what each of
them does follows from how often functions are applied, by induction on the numbers where one numeral is
applied to another (`reduces_iterate_church`). Each of these reductions ends in a normal term; that an
evaluation gets there, whatever order it reduces in and whatever names it draws, is the normalization
theorem.
-/

namespace NormalOrder

variable {κ : Type}

namespace Nameless

variable {x x' : Nameless κ}

/-- The numeral `n`: the function that applies its first argument `n` times to its second. -/
def church (n : Nat) : Nameless κ := lams 2 ((app (bound 1))^[n] (bound 0))

/-- A substitution in a function that is applied again and again. -/
theorem subst_iterate (f x : Nameless κ) (n : Nat) (σ : Nat → Nameless κ) :
    ((app f)^[n] x).subst σ = (app (f.subst σ))^[n] (x.subst σ) := by
  induction n with
  | zero => rfl
  | succ n ih => rw [Function.iterate_succ_apply', Function.iterate_succ_apply', subst, ih]

/-- A numeral is closed. -/
@[simp] theorem subst_church (n : Nat) (σ : Nat → Nameless κ) :
    (church n : Nameless κ).subst σ = church n := by
  show lam (lam (((app (bound 1))^[n] (bound 0)).subst (lift (lift σ)))) = church n
  rw [subst_iterate]
  rfl

/-- A numeral is the same under a binder. -/
@[simp] theorem shift_church (n : Nat) : (church n : Nameless κ).shift = church n := by
  rw [shift, rename_eq_subst, subst_church]

/-- A numeral that is given both its arguments applies the first to the second as often as it says. -/
theorem reduces_church (n : Nat) (f x : Nameless κ) :
    Reduces (.app (.app (church n) f) x) ((app f)^[n] x) := by
  have hsteps := headReduces_apps ((app (bound 1))^[n] (bound 0)) [x, f]
  rw [subst_iterate] at hsteps
  exact hsteps.reduces

/-- What a function is applied to again and again may be reduced. -/
theorem Reduces.iterate (f : Nameless κ) (h : Reduces x x') (n : Nat) :
    Reduces ((app f)^[n] x) ((app f)^[n] x') := by
  induction n with
  | zero => exact h
  | succ n ih =>
    rw [Function.iterate_succ_apply', Function.iterate_succ_apply']
    exact ih.argument f

/-- An index under one more binder. -/
theorem shift_bound (i : Nat) : (bound i : Nameless κ).shift = bound (i + 1) := rfl

/-- An application under one more binder. -/
theorem shift_app (f a : Nameless κ) : (app f a).shift = app f.shift a.shift := rfl

/-- The successor of a numeral. -/
theorem reduces_succ (n : Nat) :
    Reduces (.app (.lam (.lam (.lam (.app (bound 1) (.app (.app (bound 2) (bound 1)) (bound 0))))))
      (church n)) (church (n + 1) : Nameless κ) := by
  have hbody : Reduces (app (bound 1) (app (app (church n : Nameless κ) (bound 1)) (bound 0)))
      ((app (bound 1))^[n + 1] (bound 0)) := by
    rw [Function.iterate_succ_apply']
    exact (reduces_church n _ _).argument _
  have hsteps := headReduces_apps (lams 2 (.app (bound 1) (.app (.app (bound 2) (bound 1)) (bound 0))))
    [(church n : Nameless κ)]
  refine hsteps.reduces.trans ?_
  simp only [lams, subst, lift, givenTo, shift_church, shift_bound]
  exact hbody.body.body

/-- The sum of two numerals. -/
theorem reduces_plus (m n : Nat) :
    Reduces (.app (.app (.lam (.lam (.lam (.lam (.app (.app (bound 3) (bound 1))
      (.app (.app (bound 2) (bound 1)) (bound 0))))))) (church m)) (church n))
      (church (m + n) : Nameless κ) := by
  have hbody : Reduces (app (app (church m : Nameless κ) (bound 1))
      (app (app (church n) (bound 1)) (bound 0))) ((app (bound 1))^[m + n] (bound 0)) := by
    rw [Function.iterate_add_apply]
    exact (reduces_church m _ _).trans ((reduces_church n _ _).iterate _ m)
  have hsteps := headReduces_apps (lams 2 (.app (.app (bound 3) (bound 1))
      (.app (.app (bound 2) (bound 1)) (bound 0)))) [(church n : Nameless κ), church m]
  refine hsteps.reduces.trans ?_
  simp only [lams, subst, lift, givenTo, shift_church, shift_bound]
  exact hbody.body.body

/-- Applying a function `n` times, and this `m` times. -/
theorem reduces_iterate_church (m n : Nat) (f x : Nameless κ) :
    Reduces ((app (app (church n) f))^[m] x) ((app f)^[m * n] x) := by
  induction m with
  | zero => rw [Nat.zero_mul]; exact .refl
  | succ m ih =>
    rw [Function.iterate_succ_apply', Nat.succ_mul, Nat.add_comm, Function.iterate_add_apply]
    exact (ih.argument _).trans (reduces_church n f _)

/-- The product of two numerals. -/
theorem reduces_mult (m n : Nat) :
    Reduces (.app (.app (.lam (.lam (.lam (.app (bound 2) (.app (bound 1) (bound 0)))))) (church m))
      (church n)) (church (m * n) : Nameless κ) := by
  have hbody : Reduces (app (church m : Nameless κ) (app (church n) (bound 0)))
      (lam ((app (bound 1))^[m * n] (bound 0))) := by
    have happly := reduces_iterate_church m n (bound 1 : Nameless κ) (bound 0)
    refine .head (.redex _ _) (Reduces.body ?_)
    rw [subst_iterate]
    simp only [subst, lift, single, shift_app, shift_church, shift_bound]
    exact happly
  have hsteps := headReduces_apps (lams 1 (.app (bound 2) (.app (bound 1) (bound 0))))
    [(church n : Nameless κ), church m]
  refine hsteps.reduces.trans ?_
  simp only [lams, subst, lift, givenTo, shift_church]
  exact hbody.body

/-- The test for zero gives the first of two truth values for zero and the second otherwise. -/
theorem reduces_isZero (n : Nat) :
    Reduces (.app (.lam (.app (.app (bound 0) (.lam (lams 2 (bound 0)))) (lams 2 (bound 1))))
      (church n)) (if n = 0 then lams 2 (bound 1) else lams 2 (bound 0) : Nameless κ) := by
  have happly := reduces_church n (.lam (lams 2 (bound 0))) (lams 2 (bound 1) : Nameless κ)
  refine .head (.redex _ _) (happly.trans ?_)
  cases n with
  | zero => exact .refl
  | succ n =>
    rw [Function.iterate_succ_apply']
    exact .single (.redex _ _)

end Nameless

namespace Term

/-- The numeral `n` as it is written in the prelude, without parentheses. -/
def church (n : Nat) : Term κ := lam "f" (lam "x" ((app (var "f"))^[n] (var "x")))

/-- A numeral is a normal term. -/
theorem normal_church (n : Nat) : (church n : Term κ).Normal := by
  show ((app (var "f"))^[n] (var "x") : Term κ).Normal
  induction n with
  | zero => trivial
  | succ n ih =>
    rw [Function.iterate_succ_apply']
    exact ⟨id, trivial, ih⟩

/-- The nameless form of a numeral. -/
theorem nameless_church (n : Nat) : (church n : Term κ).nameless = .church n := by
  have hbody : ((app (var "f"))^[n] (var "x") : Term κ).namelessUnder ["x", "f"]
      = (Nameless.app (.bound 1))^[n] (.bound 0) := by
    induction n with
    | zero => rfl
    | succ n ih =>
      rw [Function.iterate_succ_apply', Function.iterate_succ_apply', namelessUnder, ih]
      rfl
  show Nameless.lam (.lam _) = _
  rw [hbody]
  rfl

end Term

namespace Evaluator

open Term

/-- A numeral needs no values. -/
theorem valued_church {m : Evaluator κ} (n : Nat) : Valued (church n) m :=
  valued_of_plain (normal_church n).plain

/-- No value is put into a numeral. -/
theorem splice_church (env : OrderedMap String (Term κ)) (n : Nat) :
    (church n).splice env = church n :=
  splice_eq_self ((normal_church n).lacks _)

section

variable {o : Options} (ho : o.withPrelude = true) (hm : Unlimited (new o : Evaluator Empty))
include ho hm

/-- `SUCC` computes the successor. -/
theorem comesTo_succ (n : Nat) :
    ComesTo (new o) (app (ref "SUCC") (church n)) (church (n + 1)) := by
  have hs : Valued (app (ref "SUCC") (church n)) (new o : Evaluator Empty) :=
    (valued_ref ho rfl).app (valued_church n)
  refine comesTo_of_reduces hm (holdsClosed_new ho) hs ?_ (normal_church _)
  have hred : Nameless.Reduces _ (.church (n + 1) : Nameless Empty) := Nameless.reduces_succ n
  rw [← nameless_church, ← nameless_church] at hred
  rw [splice, splice_church, ref, splice, get?_new ho]
  exact hred

/-- `PLUS` computes the sum. -/
theorem comesTo_plus (m n : Nat) :
    ComesTo (new o) (app (app (ref "PLUS") (church m)) (church n)) (church (m + n)) := by
  have hs : Valued (app (app (ref "PLUS") (church m)) (church n)) (new o : Evaluator Empty) :=
    ((valued_ref ho rfl).app (valued_church m)).app (valued_church n)
  refine comesTo_of_reduces hm (holdsClosed_new ho) hs ?_ (normal_church _)
  have hred : Nameless.Reduces _ (.church (m + n) : Nameless Empty) := Nameless.reduces_plus m n
  rw [← nameless_church, ← nameless_church, ← nameless_church] at hred
  rw [splice, splice, splice_church, splice_church, ref, splice, get?_new ho]
  exact hred

/-- `MULT` computes the product. -/
theorem comesTo_mult (m n : Nat) :
    ComesTo (new o) (app (app (ref "MULT") (church m)) (church n)) (church (m * n)) := by
  have hs : Valued (app (app (ref "MULT") (church m)) (church n)) (new o : Evaluator Empty) :=
    ((valued_ref ho rfl).app (valued_church m)).app (valued_church n)
  refine comesTo_of_reduces hm (holdsClosed_new ho) hs ?_ (normal_church _)
  have hred : Nameless.Reduces _ (.church (m * n) : Nameless Empty) := Nameless.reduces_mult m n
  rw [← nameless_church, ← nameless_church, ← nameless_church] at hred
  rw [splice, splice, splice_church, splice_church, ref, splice, get?_new ho]
  exact hred

/-- `ISZERO` tells zero from the other numbers by the truth values `T` and `F`. -/
theorem comesTo_isZero (n : Nat) :
    ∃ v, (new o : Evaluator Empty).environment.get? (if n = 0 then "T" else "F") = some v ∧
      ComesTo (new o) (app (ref "ISZERO") (church n)) v := by
  have hs : Valued (app (ref "ISZERO") (church n)) (new o : Evaluator Empty) :=
    (valued_ref ho rfl).app (valued_church n)
  have hred := Nameless.reduces_isZero (κ := Empty) n
  rw [← nameless_church] at hred
  have hcomes : ∀ v : Expr, v.Normal →
      v.nameless = (if n = 0 then .lams 2 (.bound 1) else .lams 2 (.bound 0)) →
        ComesTo (new o) (app (ref "ISZERO") (church n)) v := by
    intro v hv hread
    refine comesTo_of_reduces hm (holdsClosed_new ho) hs ?_ hv
    rw [splice, splice_church, ref, splice, get?_new ho, hread]
    exact hred
  cases n with
  | zero => exact ⟨lam "x" (lam "y" (var "x")), get?_new ho "T", hcomes _ trivial rfl⟩
  | succ n => exact ⟨lam "x" (lam "y" (var "y")), get?_new ho "F", hcomes _ trivial rfl⟩

end

/-- In a new evaluator whose names do not run out and that has no budget, the functions for numerals
compute the successor, the sum and the product of all numbers, and the test for zero gives the value of
`T` for zero and that of `F` for any other number. -/
theorem evaluate_arithmetic (m n : Nat) :
    let e : Evaluator Empty := new { subscripts := true }
    ComesTo e (app (ref "SUCC") (church m)) (church (m + 1)) ∧
      ComesTo e (app (app (ref "PLUS") (church m)) (church n)) (church (m + n)) ∧
      ComesTo e (app (app (ref "MULT") (church m)) (church n)) (church (m * n)) ∧
      ∃ v, e.environment.get? (if m = 0 then "T" else "F") = some v ∧
        ComesTo e (app (ref "ISZERO") (church m)) v := by
  intro e
  have ho : ({ subscripts := true } : Options).withPrelude = true := rfl
  have he : Unlimited e := unlimited_new rfl rfl
  exact ⟨comesTo_succ ho he m, comesTo_plus ho he m n, comesTo_mult ho he m n,
    comesTo_isZero ho he m⟩

end Evaluator

end NormalOrder
