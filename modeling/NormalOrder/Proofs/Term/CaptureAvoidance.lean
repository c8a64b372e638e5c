import Mathlib
import NormalOrder.Proofs.Term.Parentheses

/-!
# Substitution avoids capture

What a substitution gives reads as the nameless form of the term with the free variable replaced, so no
binder captures a variable of what is put in (`subst_avoids_capture`). It is enough that the names in
use cover both terms, and then they cover the result.

The names that are drawn on the way are as many as there are binders to go through to the free
occurrences of the variable (`bindersOver`), whatever they are called: each gets a new name. The number
is a matter of the term alone, because the renaming of an outer binder changes nothing about which inner
ones are gone through (`RenameTo.bindersOver_eq`). So the substitution succeeds exactly if that many names
can be drawn, and the supply that it leaves is the one that they leave (`draws_subst`). Where the
variable is not free no binder is renamed, and the substitution only drops parentheses
(`SubstTo.dropGroups_eq`).
-/

namespace NormalOrder.Term

variable {κ : Type} {x p q : String} {s t t' r : Term κ} {names names' : NameSupply}

/-! ## The binders to go through -/

/-- Whether a variable occurs free can be decided. -/
instance decidableFreeIn (x : String) : (t : Term κ) → Decidable (t.FreeIn x)
  | var y => inferInstanceAs (Decidable (y = x))
  | lam p b =>
    have := decidableFreeIn x b
    inferInstanceAs (Decidable (p ≠ x ∧ b.FreeIn x))
  | app f a =>
    have := decidableFreeIn x f
    have := decidableFreeIn x a
    inferInstanceAs (Decidable (f.FreeIn x ∨ a.FreeIn x))
  | group t => decidableFreeIn x t
  | bind _ t => decidableFreeIn x t
  | metavar _ _ | const _ => inferInstanceAs (Decidable False)

/-- How many binders of a term have a free occurrence of `x` below them that is free in the whole
term. -/
def bindersOver (x : String) : Term κ → Nat
  | lam p b => if p = x then 0 else b.bindersOver x + if b.FreeIn x then 1 else 0
  | app f a => f.bindersOver x + a.bindersOver x
  | group t => t.bindersOver x
  | bind _ t => t.bindersOver x
  | var _ | metavar _ _ | const _ => 0

/-- No binder is over a variable that does not occur free. -/
theorem bindersOver_eq_zero (h : ¬ t.FreeIn x) : t.bindersOver x = 0 := by
  induction t with
  | var | metavar | const => rfl
  | lam p b ih =>
    rw [bindersOver]
    split
    · rfl
    · next hp =>
      have hb : ¬ b.FreeIn x := fun hb => h ⟨hp, hb⟩
      rw [ih hb, if_neg hb]
  | app f a ihf iha => rw [bindersOver, ihf fun hf => h (.inl hf), iha fun ha => h (.inr ha)]
  | group t ih | bind n t ih => exact ih h

/-- A renaming does not change where another variable occurs free. -/
theorem RenameTo.freeIn (h : RenameTo p q t t') (hp : p ≠ x) (hq : q ≠ x) :
    t'.FreeIn x ↔ t.FreeIn x := by
  induction h with
  | found => exact iff_of_false hq hp
  | other | shadowed | const => exact Iff.rfl
  | lam _ _ ih => exact and_congr_right fun _ => ih
  | app _ _ ihf iha => exact or_congr ihf iha
  | group _ ih | bind _ ih => exact ih

/-- A renaming does not change how many binders are over another variable. -/
theorem RenameTo.bindersOver_eq (h : RenameTo p q t t') (hp : p ≠ x) (hq : q ≠ x) :
    t'.bindersOver x = t.bindersOver x := by
  induction h with
  | found | other | shadowed | const => rfl
  | lam _ hb ih => simp only [bindersOver, ih, hb.freeIn hp hq]
  | app _ _ ihf iha => rw [bindersOver, bindersOver, ihf, iha]
  | group _ ih | bind _ ih => exact ih

/-! ## The names drawn -/

/-- A substitution and a series of draws come to the same: both succeed and leave one supply, or both
fail. -/
inductive DrawsAlike : Substituted κ → Option (List String × NameSupply) → Prop where
  | ok (r : Term κ) (xs : List String) (names : NameSupply) :
    DrawsAlike (.ok r, names) (some (xs, names))
  | error (v : Violation) (names : NameSupply) : DrawsAlike (.error v, names) none

namespace DrawsAlike

variable {out : Substituted κ} {draws : Option (List String × NameSupply)}

/-- They do so also if the result is put into a larger term and names are put before those drawn. -/
theorem map {f : Term κ → Term κ} {g : List String → List String} (h : DrawsAlike out draws) :
    DrawsAlike (out.map f) (draws.map fun d => (g d.1, d.2)) := by
  cases h with
  | ok r xs names => exact .ok (f r) (g xs) names
  | error v names => exact .error v names

end DrawsAlike

/-- A substitution in a covered term draws a name for each binder over the variable, and it fails only
if there are not as many names. -/
theorem draws_subst (x : String) (s : Term κ) (ht : t.Lacks .metavariable)
    (hcov : names.Covers t) :
    DrawsAlike (subst x s t names) (names.draw (t.bindersOver x)) := by
  fun_induction subst x s t names with
  | case1 | case13 => exact .ok _ _ _
  | case2 b names =>
    rw [bindersOver, if_pos rfl]
    exact .ok _ _ _
  | case3 p b names hp v hx =>
    obtain ⟨answer, ha⟩ := exists_isFree (lacks_lam.1 ht) x
    rw [ha] at hx
    cases hx
  | case4 p b names hp hx ih =>
    have hfree : ¬ b.FreeIn x := not_freeIn_of_isFree hx
    have hb := ih ht (NameSupply.covers_lam.1 hcov).2
    rw [bindersOver, if_neg hp, if_neg hfree]
    simpa using hb.map (f := lam p) (g := id)
  | case5 p b names hp hx hq =>
    rw [bindersOver, if_neg hp, if_pos ((isFree_eq_ok hx).1 rfl), NameSupply.draw, hq]
    exact .error _ _
  | case6 p b names hp hx q names₁ hq v hr =>
    obtain ⟨b', hb⟩ := exists_rename (lacks_lam.1 ht) p q
    rw [hb] at hr
    cases hr
  | case7 p b names hp hx q names₁ hq b₁ hr ih =>
    have hfree : b.FreeIn x := (isFree_eq_ok hx).1 rfl
    have hcovb : names.Covers b := (NameSupply.covers_lam.1 hcov).2
    have hqx : q ≠ x := fun hqx => hcovb.fresh_not_mem hq (hqx ▸ hfree.mem_names)
    have hb := ih ((lacks_lam.1 ht).rename hr) (covers_rename hcovb hq hr)
    rw [(renameTo_of_rename hr).bindersOver_eq hp hqx] at hb
    rw [bindersOver, if_neg hp, if_pos hfree, NameSupply.draw, hq]
    exact hb.map (g := (q :: ·))
  | case8 f a names v names₁ hf ihf =>
    have hdraws := ihf ht.1 (NameSupply.covers_app.1 hcov).1
    rw [hf] at hdraws
    rw [bindersOver, NameSupply.draw_add]
    generalize names.draw (f.bindersOver x) = draws at hdraws
    cases hdraws
    exact .error _ _
  | case9 f a names f' names₁ hf ihf iha =>
    obtain ⟨hcf, hca⟩ := NameSupply.covers_app.1 hcov
    have hdraws := ihf ht.1 hcf
    have harg := iha ht.2 ((substTo_of_subst hf).grows.covers hca)
    rw [hf] at hdraws
    rw [bindersOver, NameSupply.draw_add]
    generalize names.draw (f.bindersOver x) = draws at hdraws
    cases hdraws with
    | ok _ xs _ => exact harg.map (g := (xs ++ ·))
  | case10 t names ih => exact ih ht.2 hcov
  | case11 n t names ih => simpa [bindersOver] using (ih ht.2 hcov).map (f := bind n) (g := id)
  | case12 => exact absurd rfl ht

/-- A name that is in use after a substitution was in use before it, or the result has it. -/
theorem SubstTo.mem_names (h : SubstTo x s t names r names') {y : String}
    (hy : names'.contains y = true) : names.contains y = true ∨ y ∈ r.names := by
  induction h with
  | found | other | shadowed | const => exact .inl hy
  | unused _ _ _ ih => exact (ih hy).imp_right (List.mem_cons_of_mem _)
  | @renamed p q b b' b'' names names' names'' _ _ hq _ _ ih =>
    rcases ih hy with hy | hy
    · obtain ⟨-, rfl⟩ := NameSupply.fresh_eq_some hq
      rcases (NameSupply.contains_use names q y).1 hy with rfl | hy
      · exact .inr (.head _)
      · exact .inl hy
    · exact .inr (.tail _ hy)
  | app _ _ ihf iha =>
    rcases iha hy with hy | hy
    · exact (ihf hy).imp_right (List.mem_append_left _)
    · exact .inr (List.mem_append_right _ hy)
  | group _ ih | bind _ ih => exact ih hy

/-- Where the variable is not free, only parentheses are dropped. -/
theorem SubstTo.dropGroups_eq (h : SubstTo x s t names r names') (hx : ¬ t.FreeIn x) :
    r.dropGroups = t.dropGroups := by
  induction h with
  | found => exact absurd rfl hx
  | other | shadowed | const => rfl
  | @unused p b b' _ _ _ hb _ ih => exact congrArg (Term.lam p) (ih hb)
  | renamed hp hfree => exact absurd ⟨hp, hfree⟩ hx
  | app _ _ ihf iha =>
    exact congrArg₂ Term.app (ihf fun hf => hx (.inl hf)) (iha fun ha => hx (.inr ha))
  | group _ ih => exact ih hx
  | @bind n _ _ _ _ _ ih => exact congrArg (Term.bind n) (ih hx)

/-! ## The substitution -/

/-- Substitution of `s` for `x` in a term without metavariables, from a supply that has all names of
both terms in use. It succeeds exactly if a name can be drawn for each binder over `x`. Its result then
reads as the term with every free `x` replaced by `s`, and all names of the result are in use. The
supply is the one before with the drawn names in use: they are distinct and new, and the result has
them. If `x` is not free, no name is drawn and the result is the term with fewer parentheses. -/
theorem subst_avoids_capture (x : String) (ht : t.Lacks .metavariable) (hcov : names.Covers t)
    (hcovs : names.Covers s) :
    ((∃ r names', subst x s t names = (.ok r, names')) ↔
        ∃ drawn names', names.draw (t.bindersOver x) = some (drawn, names')) ∧
      ∀ r names', subst x s t names = (.ok r, names') →
        r.nameless = t.nameless.substFree x s.nameless ∧ names'.Covers r ∧
          (∃ drawn, names.draw (t.bindersOver x) = some (drawn, names') ∧ drawn.Nodup ∧
            (∀ y ∈ drawn, names.contains y = false ∧ y ∈ r.names) ∧
            ∀ y, names'.contains y = true ↔ y ∈ drawn ∨ names.contains y = true) ∧
          (¬ t.FreeIn x → names' = names ∧ r.dropGroups = t.dropGroups) := by
  have hdraws := draws_subst x s ht hcov
  generalize hout : subst x s t names = out at hdraws
  generalize hdrawn : names.draw (t.bindersOver x) = draws at hdraws
  cases hdraws with
  | error v names₁ => exact ⟨⟨nofun, nofun⟩, nofun⟩
  | ok r xs names₁ =>
    refine ⟨⟨fun _ => ⟨xs, names₁, rfl⟩, fun _ => ⟨r, names₁, rfl⟩⟩, ?_⟩
    rintro _ _ ⟨⟩
    have hto := substTo_of_subst hout
    obtain ⟨-, hnodup, hnew, hused⟩ := NameSupply.draw_eq_some hdrawn
    have hcontains : ∀ y, names₁.contains y = true ↔ y ∈ xs ∨ names.contains y = true := by
      intro y
      rw [hused, NameSupply.contains_useAll]
    refine ⟨?_, hto.covers hcov hcovs, ⟨xs, rfl, hnodup, fun y hy => ⟨hnew y hy, ?_⟩, hcontains⟩,
      fun hx => ⟨?_, hto.dropGroups_eq hx⟩⟩
    · rw [nameless_eq_readIn r, hto.readIn hcov hcovs, ← nameless_eq_readIn, readIn_update_free]
    · refine (hto.mem_names ((hcontains y).2 (.inl hy))).resolve_left fun hold => ?_
      rw [hnew y hy] at hold
      cases hold
    · rw [bindersOver_eq_zero hx] at hdrawn
      cases hdrawn
      rfl

/-- In `\y.(\z.x y) (\x.x)` two binders are over `x`. With `y z` for `x` they get the names `a` and `b`,
the first two that are not in use, and neither captures a variable; the binder of `x` itself stays. -/
theorem subst_avoids_capture_twice :
    ∃ (s t r : Expr) (names names' : NameSupply), s = .app (.var "y") (.var "z") ∧
      t = .lam "y" (.app (.group (.lam "z" (.app (.var "x") (.var "y")))) (.lam "x" (.var "x"))) ∧
      r = .lam "a" (.app (.lam "b" (.app s (.var "a"))) (.lam "x" (.var "x"))) ∧
      names = (NameSupply.new false).useAll ["x", "y", "z"] ∧
      t.Lacks .metavariable ∧ names.Covers t ∧ names.Covers s ∧
      subst "x" s t names = (.ok r, names') ∧ r.nameless = t.nameless.substFree "x" s.nameless ∧
      names'.Covers r ∧ names.draw (t.bindersOver "x") = some (["a", "b"], names') := by
  let s : Expr := .app (.var "y") (.var "z")
  let t : Expr :=
    .lam "y" (.app (.group (.lam "z" (.app (.var "x") (.var "y")))) (.lam "x" (.var "x")))
  let r : Expr := .lam "a" (.app (.lam "b" (.app s (.var "a"))) (.lam "x" (.var "x")))
  let names := (NameSupply.new false).useAll ["x", "y", "z"]
  let names' := names.useAll ["a", "b"]
  have ht : t.Lacks .metavariable := ⟨⟨nofun, trivial, trivial⟩, trivial⟩
  have hcov : ∀ y ∈ t.names, names.contains y = true := by decide
  have hcovs : ∀ y ∈ s.names, names.contains y = true := by decide
  have hr : subst "x" s t names = (.ok r, names') := by cbv
  have hdraw : names.draw (t.bindersOver "x") = some (["a", "b"], names') := by cbv
  obtain ⟨-, hsub⟩ := subst_avoids_capture "x" ht hcov hcovs
  obtain ⟨hread, hcov', -, -⟩ := hsub r names' hr
  exact ⟨s, t, r, names, names', rfl, rfl, rfl, rfl, ht, hcov, hcovs, hr, hread, hcov', hdraw⟩

end NormalOrder.Term
