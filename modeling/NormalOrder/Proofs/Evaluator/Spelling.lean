import NormalOrder.Proofs.Evaluator.Preservation
import NormalOrder.Proofs.Names.FirstFit
import NormalOrder.Proofs.Term.Printer

/-!
# Names stay spelled

Fresh names are spelled as variables are (`NameSupply.spelled_of_fresh`), and nothing else that evaluation does
makes a name. So to be spelled as texts are is a property that evaluation keeps (`kept_wellNamed`): where
the definitions of the environment and a term are spelled so, the definitions that the term stores are
too. The environment of an evaluator that has evaluated nothing but source lines therefore holds spelled
definitions (`holds_afterLines`).
-/

namespace NormalOrder

variable {κ : Type}

/-! ## Terms -/

namespace Term

variable {p q x : String} {s t t' u r : Term κ} {names names' : NameSupply}

/-- A term stays spelled when a variable gets a name that is spelled as a variable. -/
theorem WellNamed.rename (ht : t.WellNamed) (hq : Token.Spelled .var q.toList)
    (h : t.rename p q = .ok t') : t'.WellNamed := by
  replace h := renameTo_of_rename h
  induction h with
  | found => exact hq
  | other | shadowed | const => exact ht
  | lam _ _ ih | bind _ ih => exact ⟨ht.1, ih ht.2⟩
  | app _ _ ihf iha => exact ⟨ihf ht.1, iha ht.2⟩
  | group _ ih => exact ih ht

/-- What a spelled term becomes when a spelled term is put into it is spelled. -/
theorem SubstTo.wellNamed (h : SubstTo x s t names r names') (ht : t.WellNamed)
    (hs : s.WellNamed) : r.WellNamed := by
  induction h with
  | found => exact hs
  | other | shadowed | const => exact ht
  | unused _ _ _ ih => exact ⟨ht.1, ih ht.2⟩
  | renamed _ _ hq hr _ ih =>
    have hspelled := NameSupply.spelled_of_fresh hq
    exact ⟨hspelled, ih (ht.2.rename hspelled hr)⟩
  | app _ _ ihf iha => exact ⟨ihf ht.1, iha ht.2⟩
  | group _ ih => exact ih ht
  | bind _ ih => exact ⟨ht.1, ih ht.2⟩

end Term

/-! ## Environments -/

/-- The definitions that the map stands for are spelled as texts are. -/
def OrderedMap.HoldsSpelled (env : OrderedMap String (Term κ)) : Prop :=
  ∀ n v, env.get? n = some v → (Term.bind n v).WellNamed

namespace Evaluator

/-- That a term is spelled as texts are is a property that evaluation keeps. -/
theorem kept_wellNamed : Kept (Term.WellNamed : Term κ → Prop) where
  body h := h.2
  lam h h' := ⟨h.1, h'⟩
  inner h := h
  group _ h' := h'
  value h := h.2
  bind h h' := ⟨h.1, h'⟩
  app := Iff.rfl
  subst h ht hs := h.wellNamed ht hs

variable [Shown κ] {m : Evaluator κ}

/-! ## Source lines -/

/-- Evaluates a source line in at most as many steps as are given with it; a text that is no
expression changes nothing. -/
def evaluateSource (m : Evaluator κ) (line : Nat × String) : Evaluator κ :=
  match Term.parse line.2 with
  | .ok t => (evaluate line.1 t m).state
  | .error _ => m

/-- The state that a series of source lines leaves, whatever came of each, from an evaluator that is
set up as the options ask. -/
def afterLines (o : Options) (lines : List (Nat × String)) : Evaluator κ :=
  lines.foldl evaluateSource (new o)

/-- Where the environment holds normal terms and spelled definitions, it does so after a source line,
whatever comes of it. -/
theorem holds_evaluateSource (hn : m.environment.HoldsNormal) (hs : m.environment.HoldsSpelled)
    (line : Nat × String) :
    (evaluateSource m line).environment.HoldsNormal ∧
      (evaluateSource m line).environment.HoldsSpelled := by
  rw [evaluateSource]
  split
  · next t ht =>
    have hwell := Grammar.wellNamed_of_parse ht
    have henv : (evaluate line.1 t m).state.environment
        = m.environment.putAll (Call.stored (.evaluate line.1 t) m) :=
      environment_run (.evaluate line.1 t) m
    have hnormal := Call.normal_stored (.evaluate line.1 t) m
    have hvalues : ∀ n v, m.environment.get? n = some v → v.WellNamed := fun n v hv => (hs n v hv).2
    have hspelled := kept_stored_evaluate kept_wellNamed hvalues hwell line.1
    rw [henv]
    exact ⟨hn.putAll hnormal, OrderedMap.forall_get?_putAll hs hspelled⟩
  · exact ⟨hn, hs⟩

/-- Where the environment holds normal terms and spelled definitions, it does so after every series of
source lines. -/
theorem holds_foldl_evaluateSource (lines : List (Nat × String)) (hn : m.environment.HoldsNormal)
    (hs : m.environment.HoldsSpelled) :
    (lines.foldl evaluateSource m).environment.HoldsNormal ∧
      (lines.foldl evaluateSource m).environment.HoldsSpelled := by
  induction lines generalizing m with
  | nil => exact ⟨hn, hs⟩
  | cons line lines ih =>
    obtain ⟨hn', hs'⟩ := holds_evaluateSource hn hs line
    exact ih hn' hs'

/-- Setting an evaluator up is evaluating source lines. -/
theorem new_eq_foldl_evaluateSource (o : Options) :
    (new o : Evaluator κ)
      = ((if o.withPrelude then definitions else []).map (1, ·)).foldl evaluateSource (blank o) := by
  rw [new, List.foldl_map]
  split
  · rfl
  · rfl

/-- After every series of source lines the environment holds normal terms and spelled definitions. -/
theorem holds_afterLines (o : Options) (lines : List (Nat × String)) :
    (afterLines o lines : Evaluator κ).environment.HoldsNormal ∧
      (afterLines o lines : Evaluator κ).environment.HoldsSpelled := by
  have hempty : ∀ (n : String) (v : Term κ), (blank o).environment.get? n ≠ some v := nofun
  rw [afterLines, new_eq_foldl_evaluateSource, ← List.foldl_append]
  exact holds_foldl_evaluateSource _ (fun n v hv => absurd hv (hempty n v))
    fun n v hv => absurd hv (hempty n v)

end Evaluator

end NormalOrder
