import NormalOrder.Proofs.Nameless.Standard

/-!
# Head reductions

`HeadReduces` contracts head redexes one after another. A head redex is the leftmost one, so a term
and what it comes to by head steps have the same normal form, or have none both
(`HeadReduces.reduces_iff`); nothing has to be known of the arguments, which head steps do not touch.

An abstraction over several parameters, `lams n b`, that is applied to as many arguments comes by head
steps to its body with the arguments in place (`headReduces_apps`). Arguments are listed from the last
to the first here, as indices count binders from the innermost to the outermost.
-/

namespace NormalOrder.Nameless

variable {κ : Type} {t u v w f f' a a' : Nameless κ} {k : Nat}

/-! ## Reductions of parts -/

/-- The function of an application may be reduced. -/
theorem Reduces.function (h : Reduces f f') (a : Nameless κ) : Reduces (app f a) (app f' a) :=
  h.lift (fun f => app f a) fun _ _ hb => .function hb

/-- The argument of an application may be reduced. -/
theorem Reduces.argument (f : Nameless κ) (h : Reduces a a') : Reduces (app f a) (app f a') :=
  h.lift (app f) fun _ _ hb => .argument hb

/-- The body of an abstraction may be reduced. -/
theorem Reduces.body (h : Reduces t u) : Reduces (lam t) (lam u) :=
  h.lift lam fun _ _ hb => .lam hb

/-- Leftmost steps are β-steps. -/
theorem LeftmostIn.reduces (h : LeftmostIn k t u) : Reduces t u := by
  induction h with
  | refl => exact .refl
  | head h _ ih => exact .head h.beta ih

/-! ## Head steps one after another -/

/-- Any number of head steps. -/
def HeadReduces : Nameless κ → Nameless κ → Prop := Relation.ReflTransGen Head

/-- Head steps are β-steps. -/
theorem HeadReduces.reduces (h : HeadReduces t u) : Reduces t u :=
  h.lift id fun _ _ hs => hs.leftmost.beta

/-- Head steps of the function of an application are head steps of the application. -/
theorem HeadReduces.function (h : HeadReduces f f') (a : Nameless κ) :
    HeadReduces (app f a) (app f' a) :=
  h.lift (fun f => app f a) fun _ _ hs => .function hs

/-- The normal form of a term is that of what a head step makes of it. -/
theorem Head.reduces (h : Head t u) (ht : Reduces t w) (hw : w.Normal) : Reduces u w := by
  obtain ⟨k, hs⟩ := ht.leftmostIn hw
  cases hs with
  | refl => exact absurd h.leftmost.beta (hw u)
  | head hl hs =>
    obtain rfl := hl.unique h.leftmost
    exact hs.reduces

/-- A term and what it comes to by head steps have the same normal form, if either has one. -/
theorem HeadReduces.reduces_iff (h : HeadReduces t u) (hw : w.Normal) :
    Reduces t w ↔ Reduces u w := by
  refine ⟨fun ht => ?_, h.reduces.trans⟩
  induction h with
  | refl => exact ht
  | tail _ hs ih => exact hs.reduces ih hw

/-! ## Functions of several arguments -/

/-- A body inside `n` abstractions. -/
def lams : Nat → Nameless κ → Nameless κ
  | 0, b => b
  | n + 1, b => lams n (lam b)

/-- A function applied to arguments, the last one listed first. -/
def apps (f : Nameless κ) : List (Nameless κ) → Nameless κ
  | [] => f
  | a :: as => app (apps f as) a

/-- The substitution that gives the arguments to the indices, the last one to index 0, and lowers the
other indices. -/
def givenTo : List (Nameless κ) → Nat → Nameless κ
  | [], i => bound i
  | a :: _, 0 => a
  | _ :: as, i + 1 => givenTo as i

/-- Giving one more argument. -/
theorem instantiate_givenTo (b a : Nameless κ) (as : List (Nameless κ)) :
    (b.subst (lift (givenTo as))).instantiate a = b.subst (givenTo (a :: as)) := by
  rw [instantiate, subst_subst]
  congr 1
  funext i
  cases i with
  | zero => rfl
  | succ i => exact subst_single_shift _ _

/-- A function of several arguments that is applied to all of them comes by head steps to its body with
the arguments in place, unreduced. -/
theorem headReduces_apps (b : Nameless κ) (as : List (Nameless κ)) :
    HeadReduces (apps (lams as.length b) as) (b.subst (givenTo as)) := by
  induction as generalizing b with
  | nil =>
    have hnone : givenTo ([] : List (Nameless κ)) = bound := rfl
    rw [hnone, subst_bound]
    exact .refl
  | cons a as ih =>
    have hredex := Head.redex (b.subst (lift (givenTo as))) a
    rw [instantiate_givenTo] at hredex
    exact .tail ((ih (lam b)).function a) hredex

end NormalOrder.Nameless
