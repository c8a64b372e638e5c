import NormalOrder.Proofs.Term.Alpha

/-!
# When the parameter of an abstraction can be renamed

Renaming the parameter `p` of an abstraction to `q` gives an α-equivalent term exactly if `q` is `p`, or `q`
is not free in the body and no free `p` of the body stands below a binder of `q`
(`alphaConvert_alphaEquals_iff`). In the first case nothing changes. Otherwise a free `q` of the body would
be caught by the renamed binder, and a free `p` below a binder of `q` would, once it is called `q`, be
caught by that one.

The argument goes occurrence by occurrence. An `Occurrence` is a variable at one of its places, with the
binders around that place. A renaming that succeeds changes the name of the free occurrences of `p` and
nothing else (`RenameTo.eq_mapVariables`), so both terms have the same binders at the same places, and they
read alike exactly if each occurrence stands for the same in both (`namelessUnder_mapVariables`). What an
occurrence stands for below the renamed binder is a matter of where its name is among the binders around
it (`scope_renamed_iff`).
-/

namespace NormalOrder

variable {κ : Type}

/-! ## Occurrences of variables -/

/-- A variable at one of its places in a term. -/
structure Occurrence where
  /-- The name of the variable. -/
  name : String
  /-- The parameters of the binders around the place, innermost first. -/
  binders : List String

namespace Occurrence

/-- No binder around the place is one of the variable: it is free there in the whole term. -/
def Free (o : Occurrence) : Prop := o.name ∉ o.binders

instance : DecidablePred Free := fun o => inferInstanceAs (Decidable (o.name ∉ o.binders))

/-- The name that an occurrence has after the free `p` are renamed to `q`. -/
def renamed (p q : String) (o : Occurrence) : String :=
  if o.name = p ∧ o.Free then q else o.name

end Occurrence

namespace Term

/-- The occurrences of variables in a term below the binders `binders`, from left to right. -/
def occurrencesUnder (binders : List String) : Term κ → List Occurrence
  | var x => [⟨x, binders⟩]
  | lam p b => b.occurrencesUnder (p :: binders)
  | app f a => f.occurrencesUnder binders ++ a.occurrencesUnder binders
  | group t => t.occurrencesUnder binders
  | bind _ t => t.occurrencesUnder binders
  | metavar _ _ | const _ => []

/-- The occurrences of variables in a whole term, from left to right. -/
def occurrences (t : Term κ) : List Occurrence := t.occurrencesUnder []

/-- The term with every variable called what `f` says of its occurrence. -/
def mapVariables (f : Occurrence → String) (binders : List String) : Term κ → Term κ
  | var x => var (f ⟨x, binders⟩)
  | lam p b => lam p (b.mapVariables f (p :: binders))
  | app g a => app (g.mapVariables f binders) (a.mapVariables f binders)
  | group t => group (t.mapVariables f binders)
  | bind n t => bind n (t.mapVariables f binders)
  | metavar n l => metavar n l
  | const c => const c

variable {p q x : String} {t t' b b' : Term κ} {binders : List String} {o : Occurrence}
  {f : Occurrence → String}

/-- The binders around a term are around every place in it. -/
theorem binders_suffix (ho : o ∈ t.occurrencesUnder binders) : binders <:+ o.binders := by
  induction t generalizing binders with
  | var x =>
    obtain rfl := List.mem_singleton.1 ho
    exact List.suffix_rfl
  | lam p b ih => exact (List.suffix_cons p binders).trans (ih ho)
  | app f a ihf iha => exact (List.mem_append.1 ho).elim ihf iha
  | group t ih | bind n t ih => exact ih ho
  | metavar | const => cases ho

/-- A binder around a place in a term is one around the term, or one of its parameters. -/
theorem mem_names_of_mem_binders (ho : o ∈ t.occurrencesUnder binders) (hx : x ∈ o.binders) :
    x ∈ binders ∨ x ∈ t.names := by
  induction t generalizing binders with
  | var y =>
    obtain rfl := List.mem_singleton.1 ho
    exact .inl hx
  | lam p b ih =>
    rcases ih ho with hb | hb
    · rcases List.mem_cons.1 hb with rfl | hb
      · exact .inr (.head _)
      · exact .inl hb
    · exact .inr (.tail p hb)
  | app f a ihf iha =>
    rcases List.mem_append.1 ho with ho | ho
    · exact (ihf ho).imp_right (List.mem_append_left _)
    · exact (iha ho).imp_right (List.mem_append_right _)
  | group t ih | bind n t ih => exact ih ho
  | metavar | const => cases ho

/-- A variable is free in a term, and not bound around it, if one of its occurrences is free. -/
theorem freeIn_and_not_mem_iff :
    t.FreeIn x ∧ x ∉ binders ↔ ∃ o ∈ t.occurrencesUnder binders, o.name = x ∧ o.Free := by
  induction t generalizing binders with
  | var y =>
    simp only [FreeIn, occurrencesUnder, List.mem_singleton, exists_eq_left, Occurrence.Free]
    exact and_congr_right fun hy => by rw [hy]
  | lam p b ih =>
    rw [occurrencesUnder, ← ih, List.mem_cons, not_or, FreeIn, ne_comm]
    exact and_assoc.trans and_left_comm
  | app f a ihf iha =>
    simp only [occurrencesUnder, List.mem_append, or_and_right, exists_or, ← ihf, ← iha, FreeIn]
  | group t ih | bind n t ih => exact ih
  | metavar | const => simp [FreeIn, occurrencesUnder]

/-- A variable is free in a term if one of its occurrences is. -/
theorem freeIn_iff_occurrence : t.FreeIn x ↔ ∃ o ∈ t.occurrences, o.name = x ∧ o.Free := by
  rw [occurrences, ← freeIn_and_not_mem_iff]
  exact (and_iff_left List.not_mem_nil).symm

/-! ## Renaming, occurrence by occurrence -/

/-- A term in which every variable keeps its name does not change. -/
theorem mapVariables_eq_self (h : ∀ o ∈ t.occurrencesUnder binders, f o = o.name) :
    t.mapVariables f binders = t := by
  induction t generalizing binders with
  | var x => exact congrArg var (h ⟨x, binders⟩ (.head _))
  | lam p b ih => rw [mapVariables, ih h]
  | app g a ihg iha =>
    obtain ⟨hg, ha⟩ := List.forall_mem_append.1 h
    rw [mapVariables, ihg hg, iha ha]
  | group t ih | bind n t ih => rw [mapVariables, ih h]
  | metavar | const => rfl

/-- A renaming changes the name of the free occurrences and nothing else. -/
theorem RenameTo.eq_mapVariables (h : RenameTo p q t t') (hp : p ∉ binders) :
    t' = t.mapVariables (Occurrence.renamed p q) binders := by
  induction h generalizing binders with
  | found => simp [mapVariables, Occurrence.renamed, Occurrence.Free, hp]
  | other hy => simp [mapVariables, Occurrence.renamed, hy]
  | shadowed b =>
    -- every place in the body has this binder around it, so no occurrence of `p` there is free
    refine (mapVariables_eq_self fun o ho => if_neg ?_).symm
    rintro ⟨hname, hfree⟩
    have hinside : p :: binders <:+ o.binders := binders_suffix ho
    exact hfree (hname ▸ hinside.subset (.head _))
  | lam hr _ ih => rw [mapVariables, ih (List.not_mem_cons_of_ne_of_not_mem hr.symm hp)]
  | app _ _ ihf iha => rw [mapVariables, ihf hp, iha hp]
  | group _ ih | bind _ ih => rw [mapVariables, ih hp]
  | const => rfl

/-- With its variables called otherwise a term reads below the binders `outer'` as it did below `outer`
exactly if every occurrence stands there for what it stood for here. -/
theorem namelessUnder_mapVariables (binders : List String) {outer outer' : List String} :
    (t.mapVariables f binders).namelessUnder (binders ++ outer')
        = t.namelessUnder (binders ++ outer) ↔
      ∀ o ∈ t.occurrencesUnder binders,
        (scope (o.binders ++ outer') (f o) : Nameless κ) = scope (o.binders ++ outer) o.name := by
  induction t generalizing binders with
  | var x =>
    rw [occurrencesUnder, List.forall_mem_singleton]
    exact Iff.rfl
  | lam p b ih =>
    rw [mapVariables, namelessUnder, namelessUnder, Nameless.lam.injEq]
    exact ih (p :: binders)
  | app g a ihg iha =>
    rw [mapVariables, namelessUnder, namelessUnder, Nameless.app.injEq, ihg, iha, occurrencesUnder,
      List.forall_mem_append]
  | group t ih => exact ih binders
  | bind n t ih =>
    rw [mapVariables, namelessUnder, namelessUnder, Nameless.bind.injEq, ih]
    exact and_iff_right rfl
  | metavar | const => simp [mapVariables, namelessUnder, occurrencesUnder]

/-! ## What an occurrence stands for -/

/-- A variable that one of the inner binders binds stands for that binder, whatever is around them. -/
theorem exists_scope_append (hx : x ∈ binders) :
    ∃ i < binders.length, ∀ outer, (scope (binders ++ outer) x : Nameless κ) = .bound i := by
  induction binders with
  | nil => cases hx
  | cons y ys ih =>
    rcases eq_or_ne x y with rfl | hxy
    · refine ⟨0, Nat.succ_pos _, fun outer => ?_⟩
      rw [List.cons_append, ← underBinder_scope, underBinder_self]
    · obtain ⟨i, hi, hscope⟩ := ih ((List.mem_cons.1 hx).resolve_left hxy)
      refine ⟨i + 1, Nat.succ_lt_succ hi, fun outer => ?_⟩
      rw [List.cons_append, ← underBinder_scope, underBinder_of_ne hxy, hscope]
      rfl

/-- A variable that none of the inner binders binds stands for the binder around them, if that one binds
it, or else for itself. -/
theorem scope_append_singleton (hx : x ∉ binders) (r : String) :
    (scope (binders ++ [r]) x : Nameless κ) = if x = r then .bound binders.length else .free x := by
  induction binders with
  | nil =>
    rw [List.nil_append, ← underBinder_scope]
    rfl
  | cons y ys ih =>
    obtain ⟨hxy, hys⟩ := List.ne_and_not_mem_of_not_mem_cons hx
    rw [List.cons_append, ← underBinder_scope, underBinder_of_ne hxy, ih hys]
    split <;> rfl

/-- Below a binder of another name `q` a renamed occurrence stands for what it stood for below the binder
of `p`, unless it is a free `q`, or a free `p` with a binder of `q` around it. -/
theorem scope_renamed_iff (hqp : q ≠ p) (o : Occurrence) :
    (scope (o.binders ++ [q]) (o.renamed p q) : Nameless κ) = scope (o.binders ++ [p]) o.name ↔
      (o.Free → o.name ≠ q ∧ (o.name = p → q ∉ o.binders)) := by
  by_cases hfree : o.Free
  · rw [scope_append_singleton hfree]
    rcases eq_or_ne o.name p with hname | hname
    · have hren : o.renamed p q = q := if_pos ⟨hname, hfree⟩
      rw [hren, if_pos hname]
      by_cases hq : q ∈ o.binders
      · -- a binder inside the renamed one catches the new name
        obtain ⟨i, hi, hscope⟩ := exists_scope_append (κ := κ) hq
        rw [hscope, Nameless.bound.injEq]
        exact iff_of_false (Nat.ne_of_lt hi) fun h => (h hfree).2 hname hq
      · rw [scope_append_singleton hq, if_pos rfl]
        exact iff_of_true rfl fun _ => ⟨hname ▸ hqp.symm, fun _ => hq⟩
    · have hren : o.renamed p q = o.name := if_neg fun h => hname h.1
      rw [hren, scope_append_singleton hfree, if_neg hname]
      rcases eq_or_ne o.name q with hq | hq
      · -- the renamed binder catches a variable that was free
        rw [if_pos hq]
        exact iff_of_false nofun fun h => (h hfree).1 hq
      · rw [if_neg hq]
        exact iff_of_true rfl fun _ => ⟨hq, fun hp => absurd hp hname⟩
  · have hren : o.renamed p q = o.name := if_neg fun h => hfree h.2
    obtain ⟨i, -, hscope⟩ := exists_scope_append (κ := κ) (not_not.1 hfree)
    rw [hren, hscope, hscope]
    exact iff_of_true rfl fun h => absurd h hfree

/-! ## Conversions in substitution -/

/-- On the way through a binder above the variable, substitution goes on in the body of the conversion to
the name that it draws. -/
theorem subst_lam_of_fresh {s : Term κ} {names names' : NameSupply} (hb : b.Lacks .metavariable)
    (hp : p ≠ x) (hx : b.FreeIn x) (hq : names.fresh = some (q, names'))
    (hr : b.rename p q = .ok b') :
    subst x s (lam p b) names = (subst x s b' names').map (lam q) := by
  obtain ⟨answer, ha⟩ := exists_isFree hb x
  obtain rfl : answer = true := (isFree_eq_ok ha).2 hx
  rw [subst, if_neg hp, ha]
  simp only [hq]
  split
  · next h => cases hr.symm.trans h
  · next h =>
    obtain rfl := Except.ok.inj (hr.symm.trans h)
    rfl

/-! ## α-conversion -/

variable [DecidableEq κ]

/-- A renamed abstraction is α-equivalent to the old one exactly if every occurrence in the body stands for
the same in both. -/
theorem RenameTo.alphaEquals_iff (h : RenameTo p q b b') :
    (Term.lam q b').alphaEquals (Term.lam p b) = true ↔ ∀ o ∈ b.occurrences,
      (scope (o.binders ++ [q]) (o.renamed p q) : Nameless κ) = scope (o.binders ++ [p]) o.name := by
  rw [alphaEquals_iff_nameless, h.eq_mapVariables List.not_mem_nil, nameless, nameless, namelessUnder,
    namelessUnder, Nameless.lam.injEq]
  exact namelessUnder_mapVariables []

/-- A conversion of an abstraction is α-equivalent to it exactly if the new name is the old one, or the new
name is not free in the body and no free occurrence of the old one has a binder of the new one around it. -/
theorem RenameTo.alphaEquals_iff_free (h : RenameTo p q b b') :
    (Term.lam q b').alphaEquals (Term.lam p b) = true ↔
      q = p ∨ ¬ b.FreeIn q ∧ ∀ o ∈ b.occurrences, o.Free → o.name = p → q ∉ o.binders := by
  rw [h.alphaEquals_iff]
  rcases eq_or_ne q p with rfl | hqp
  · refine iff_of_true (fun o _ => ?_) (.inl rfl)
    have hren : o.renamed q q = o.name := ite_eq_right_iff.2 fun h => h.1.symm
    rw [hren]
  · simp only [scope_renamed_iff hqp, freeIn_iff_occurrence]
    constructor
    · intro hall
      refine .inr ⟨?_, fun o ho hfree => (hall o ho hfree).2⟩
      rintro ⟨o, ho, hname, hfree⟩
      exact (hall o ho hfree).1 hname
    · rintro (heq | ⟨hnew, hscope⟩)
      · exact absurd heq hqp
      · exact fun o ho hfree => ⟨fun hname => hnew ⟨o, ho, hname, hfree⟩, hscope o ho hfree⟩

/-- A conversion to a name that the body does not have is α-equivalent to the old term. -/
theorem RenameTo.alphaEquals_of_not_mem_names (h : RenameTo p q b b') (hq : q ∉ b.names) :
    (Term.lam q b').alphaEquals (Term.lam p b) = true := by
  refine h.alphaEquals_iff_free.2 (.inr ⟨fun hfree => hq hfree.mem_names, fun o ho _ _ hmem => ?_⟩)
  exact (mem_names_of_mem_binders ho hmem).elim List.not_mem_nil hq

/-- Renaming the parameter `p` of an abstraction without metavariables gives a term for every name `q`.
It is α-equivalent to the abstraction exactly if `q` is `p`, or `q` is not free in the body and no free
occurrence of `p` in the body has a binder of `q` around it. So it is if the body does not have `q`. That
is what substitution relies on: from a supply that covers the body of a binder in its way, it draws a name
that the body does not have, and goes on in the body of that conversion, which the supply covers again. -/
theorem alphaConvert_alphaEquals_iff (p q : String) (hb : b.Lacks .metavariable) :
    ∃ t, alphaConvert q (lam p b) = some (.ok t) ∧
      (t.alphaEquals (lam p b) = true ↔
        q = p ∨ ¬ b.FreeIn q ∧ ∀ o ∈ b.occurrences, o.Free → o.name = p → q ∉ o.binders) ∧
      (q ∉ b.names → t.alphaEquals (lam p b) = true) ∧
      ∀ (x : String) (s : Term κ) (names names' : NameSupply), p ≠ x → b.FreeIn x →
        names.Covers b → names.fresh = some (q, names') →
          q ∉ b.names ∧ ∃ b', t = lam q b' ∧ names'.Covers b' ∧
            subst x s (lam p b) names = (subst x s b' names').map (lam q) := by
  obtain ⟨b', hr⟩ := exists_rename hb p q
  have hto : RenameTo p q b b' := renameTo_of_rename hr
  refine ⟨lam q b', by rw [alphaConvert, hr]; rfl, hto.alphaEquals_iff_free,
    hto.alphaEquals_of_not_mem_names, ?_⟩
  intro x s names names' hp hx hcov hq
  exact ⟨hcov.fresh_not_mem hq, b', rfl, covers_rename hcov hq hr,
    subst_lam_of_fresh hb hp hx hq hr⟩

/-- In `\x.x w (\z.x) (\x.\y.x y) (\y.y)` the parameter can be called `y`, which the body has in other
places, but not `w`, which is free, nor `z`, whose binder would catch an `x`. Substitution for `w` calls it
`a`, the first name that is not in use. -/
theorem alphaConvert_alphaEquals_nested :
    ∃ (b : Expr) (names names' : NameSupply),
      b = .app (.app (.app (.app (.var "x") (.var "w")) (.group (.lam "z" (.var "x"))))
        (.group (.lam "x" (.lam "y" (.app (.var "x") (.var "y")))))) (.group (.lam "y" (.var "y"))) ∧
      b.Lacks .metavariable ∧ names = (NameSupply.new true).useAll b.names ∧
      (∃ t, alphaConvert "y" (lam "x" b) = some (.ok t) ∧ t.alphaEquals (lam "x" b) = true) ∧
      (∃ t, alphaConvert "w" (lam "x" b) = some (.ok t) ∧ ¬ t.alphaEquals (lam "x" b) = true) ∧
      (∃ t, alphaConvert "z" (lam "x" b) = some (.ok t) ∧ ¬ t.alphaEquals (lam "x" b) = true) ∧
      b.FreeIn "w" ∧ names.Covers b ∧ names.fresh = some ("a", names') ∧ "a" ∉ b.names ∧
      ∃ b', alphaConvert "a" (lam "x" b) = some (.ok (lam "a" b')) ∧
        (lam "a" b').alphaEquals (lam "x" b) = true ∧ names'.Covers b' ∧
        subst "w" (.var "x") (lam "x" b) names = (subst "w" (.var "x") b' names').map (lam "a") := by
  let b : Expr := .app (.app (.app (.app (.var "x") (.var "w")) (.group (.lam "z" (.var "x"))))
    (.group (.lam "x" (.lam "y" (.app (.var "x") (.var "y")))))) (.group (.lam "y" (.var "y")))
  let names := (NameSupply.new true).useAll b.names
  have hb : b.Lacks .metavariable := by simp [b, Lacks]
  have hw : b.FreeIn "w" := by simp [b, FreeIn]
  have hy : ¬ b.FreeIn "y" := by simp [b, FreeIn]
  have hyscope : ∀ o ∈ b.occurrences, o.Free → o.name = "x" → "y" ∉ o.binders := by decide
  have hzscope : ¬ ∀ o ∈ b.occurrences, o.Free → o.name = "x" → "z" ∉ o.binders := by decide
  have hcov : ∀ y ∈ b.names, names.contains y = true := by decide
  have hfresh : names.fresh = some ("a", names.use "a") := rfl
  obtain ⟨ty, hty, hyiff, -, -⟩ := alphaConvert_alphaEquals_iff "x" "y" hb
  obtain ⟨tw, htw, hwiff, -, -⟩ := alphaConvert_alphaEquals_iff "x" "w" hb
  obtain ⟨tz, htz, hziff, -, -⟩ := alphaConvert_alphaEquals_iff "x" "z" hb
  obtain ⟨ta, hta, -, hnew, hsubst⟩ := alphaConvert_alphaEquals_iff "x" "a" hb
  obtain ⟨ha, b', rfl, hcov', heq⟩ := hsubst "w" (.var "x") names _ (by decide) hw hcov hfresh
  refine ⟨b, names, names.use "a", rfl, hb, rfl, ⟨ty, hty, hyiff.2 (.inr ⟨hy, hyscope⟩)⟩,
    ⟨tw, htw, fun h => ?_⟩, ⟨tz, htz, fun h => ?_⟩, hw, hcov, hfresh, ha, b', hta, hnew ha, hcov',
    heq⟩
  · exact (hwiff.1 h).elim (by decide) fun hfree => hfree.1 hw
  · exact (hziff.1 h).elim (by decide) fun hscope => hzscope hscope.2

end Term

end NormalOrder
