import NormalOrder.Proofs.Evaluator.Values
import NormalOrder.Proofs.OrderedMap

/-!
# The values of the prelude

What the definitions of the prelude leave in the environment of a new evaluator (`entries_new`). A
reference in a definition has been replaced by its value, so no value needs another one; and none has
a free variable (`holdsClosed_new`), so it means the same wherever it is put.
-/

namespace NormalOrder.Evaluator

open Term

variable {κ : Type}

/-- The names that the prelude binds, in order, with their values. -/
def preludeValues : List (String × Term κ) := [
  ("I", lam "x" (var "x")),
  ("M", lam "x" (app (var "x") (var "x"))),
  ("K", lam "x" (lam "y" (var "x"))),
  ("KI", lam "x" (lam "y" (var "y"))),
  ("B", lam "f" (lam "g" (lam "x" (app (var "f") (app (var "g") (var "x")))))),
  ("C", lam "f" (lam "x" (lam "y" (app (app (var "f") (var "y")) (var "x"))))),
  ("S", lam "x" (lam "y" (lam "z" (app (app (var "x") (var "z")) (app (var "y") (var "z")))))),
  ("T", lam "x" (lam "y" (var "x"))),
  ("F", lam "x" (lam "y" (var "y"))),
  ("TRUE", lam "x" (lam "y" (var "x"))),
  ("FALSE", lam "x" (lam "y" (var "y"))),
  ("NOT", lam "p" (app (app (var "p") (lam "x" (lam "y" (var "y"))))
    (lam "x" (lam "y" (var "x"))))),
  ("AND", lam "p" (lam "q" (app (app (var "p") (var "q")) (var "p")))),
  ("OR", lam "p" (lam "q" (app (app (var "p") (var "p")) (var "q")))),
  ("PAIR", lam "x" (lam "y" (lam "f" (app (app (var "f") (var "x")) (var "y"))))),
  ("FST", lam "p" (app (var "p") (lam "x" (lam "y" (var "x"))))),
  ("SND", lam "p" (app (var "p") (lam "x" (lam "y" (var "y"))))),
  ("ZERO", lam "f" (lam "x" (var "x"))),
  ("SUCC", lam "n" (lam "f" (lam "x" (app (var "f") (app (app (var "n") (var "f")) (var "x")))))),
  ("ONE", lam "f" (lam "x" (app (var "f") (var "x")))),
  ("TWO", lam "f" (lam "x" (app (var "f") (app (var "f") (var "x"))))),
  ("THREE", lam "f" (lam "x" (app (var "f") (app (var "f") (app (var "f") (var "x")))))),
  ("PLUS", lam "m" (lam "n" (lam "f" (lam "x" (app (app (var "m") (var "f"))
    (app (app (var "n") (var "f")) (var "x"))))))),
  ("MULT", lam "m" (lam "n" (lam "f" (app (var "m") (app (var "n") (var "f")))))),
  ("ISZERO", lam "n" (app (app (var "n") (lam "x" (lam "x" (lam "y" (var "y")))))
    (lam "x" (lam "y" (var "x")))))]

/-- No value of the prelude has one of its names free. -/
theorem isFree_preludeValues (e : String × Term κ) (he : e ∈ preludeValues) (x : String)
    (hx : x ∈ e.2.names) : e.2.isFree x = .ok false := by
  have hall : ((preludeValues : List (String × Term κ)).all fun e =>
      e.2.names.all fun x => decide (e.2.isFree x = .ok false)) = true := rfl
  exact of_decide_eq_true (List.all_eq_true.1 (List.all_eq_true.1 hall e he) x hx)

variable [Shown κ] {o : Options}

/-- With the prelude a new evaluator binds its names to its values. -/
theorem entries_new (ho : o.withPrelude = true) :
    (new o : Evaluator κ).environment.entries = preludeValues := by
  obtain ⟨_, budget, subscripts⟩ := o
  cases ho
  cbv

/-- The value of a name in a new evaluator. -/
theorem get?_new (ho : o.withPrelude = true) (n : String) :
    (new o : Evaluator κ).environment.get? n = OrderedMap.valueIn n preludeValues := by
  rw [OrderedMap.get?, entries_new ho]

/-- A reference to a name. -/
def ref (n : String) : Term κ := metavar n none

/-- A reference to a name of the prelude has a value in a new evaluator. -/
theorem valued_ref (ho : o.withPrelude = true) {n : String}
    (hn : (OrderedMap.valueIn n (preludeValues : List (String × Term κ))).isSome) :
    Valued (ref n) (new o : Evaluator κ) := by
  refine ⟨nofun, nofun, ?_⟩
  rw [ref, HasValues, get?_new ho]
  exact hn

/-- The values of a new evaluator are closed. -/
theorem holdsClosed_new (ho : o.withPrelude = true) :
    (new o : Evaluator κ).environment.HoldsClosed := by
  intro n v hv x hx
  have hmem := OrderedMap.mem_entries_of_get? hv
  rw [entries_new ho] at hmem
  exact not_freeIn_of_isFree (isFree_preludeValues _ hmem x hx.mem_names) hx

/-- A new evaluator is not limited if its options do not limit it. -/
theorem unlimited_new (hsub : o.subscripts = true) (hb : o.budget = .unbounded) :
    Unlimited (new o : Evaluator κ) := by
  rw [new_eq_after]
  have hsetup := sameSetup_after (κ := κ) o
  exact ⟨holdsNormal_after _ _, (hsetup _).subscripts.trans hsub, (hsetup _).budget.trans hb⟩

end NormalOrder.Evaluator
