import NormalOrder.Proofs.Evaluator.Expansion
import NormalOrder.Proofs.Evaluator.Parentheses
import NormalOrder.Proofs.Evaluator.Spelling
import NormalOrder.Proofs.OrderedMap
import NormalOrder.Shell

/-!
# An environment as text

What the shell lists of its named values is source text, and it defines the same values again
(`feed_env_loads`). A listed value is normal and its names are spelled as names are, so the line is
read, as the definition with the parentheses that its text needs (`exists_parse_definition`). There is
no metavariable in it and no redex, so it is evaluated without a contraction, and what is stored has
lost the parentheses again (`evaluate_definition`). The lines put the names in their order into an
environment that was empty, and no name comes twice, so this environment is the one that was listed
(`OrderedMap.putAll_entries`).
-/

namespace NormalOrder

variable {κ : Type}

namespace OrderedMap

variable {env : OrderedMap String (Term κ)}

/-- Pairs with names that are new come after those of the map when they are put in. -/
theorem entries_putAll {es : List (String × Term κ)}
    (h : ((env.entries ++ es).map Prod.fst).Nodup) :
    (env.putAll es).entries = env.entries ++ es := by
  induction es generalizing env with
  | nil => exact (List.append_nil _).symm
  | cons e es ih =>
    have hnew : e.1 ∉ env.keys := by
      intro he
      rw [List.map_append] at h
      exact (List.nodup_append.1 h).2.2 _ he _ (List.mem_map_of_mem List.mem_cons_self) rfl
    have hput : (env.put e.1 e.2).entries = env.entries ++ [e] := entries_put hnew e.2
    rw [List.append_cons, ← hput] at h ⊢
    exact ih h

/-- A map is what its own pairs make of the empty one. -/
theorem putAll_entries (env : OrderedMap String (Term κ)) : empty.putAll env.entries = env :=
  eq_of_entries (entries_putAll env.nodup)

end OrderedMap

/-! ## Definitions of normal terms -/

namespace Evaluator

variable [Shown κ] {n : String} {v u : Term κ}

/-- The text of a definition of a normal term is read as the definition, up to parentheses. -/
theorem exists_parse_definition (hv : v.Normal) (h : (Term.bind n v).WellNamed) :
    ∃ u : Term κ, Term.parse (n ++ " <- " ++ v.text) = .ok u ∧
      u.dropGroups = .bind n v := by
  obtain ⟨u, hparse, hu⟩ := Grammar.exists_parse_text h
  have hdrop : (Term.bind n v).dropGroups = .bind n v := by
    rw [Term.dropGroups, hv.dropGroups_eq]
  have hplace : u.dropGroups.unlocated = (Term.bind n v).unlocated := by
    rw [Term.unlocated_dropGroups, hu, ← Term.unlocated_dropGroups, Term.dropGroups_spelled, hdrop]
  exact ⟨u, hparse, Term.eq_of_unlocated hplace ⟨by decide, hv.lacks _⟩⟩

/-- A definition of a normal term, with or without parentheses, is evaluated in one step and without a
contraction, in every state. It stores the term and nothing else. -/
theorem evaluate_definition (hv : v.Normal) (hu : u.dropGroups = .bind n v) (bound : Nat)
    (m : Evaluator κ) :
    (evaluate (bound + 1) u m).outcome = .ok v ∧ (evaluate (bound + 1) u m).state.steps = 0 ∧
      (evaluate (bound + 1) u m).state.environment = m.environment.put n v := by
  have hlacks : ∀ e, e ≠ .grouping → e ≠ .binding → u.Lacks e := by
    intro e hgroup hbind
    refine Term.lacks_of_dropGroups hgroup ?_
    rw [hu]
    exact ⟨hbind, hv.lacks e⟩
  have hx : expand u m.restart
      = (.ok u, { m.restart with names := m.restart.names.useAll u.names }) := by
    rw [expand, expandIn_expanded (hlacks _ (by decide) (by decide)) (hlacks _ (by decide) (by decide))]
  have hdef : ∀ m' : Evaluator κ,
      reduce (bound + 1) (.bind n v) m' = ⟨.ok v, [], m'.commit n v⟩ := by
    intro m'
    rw [reduce, (StepTo.store (stepTo_normal hv m')).step_eq]
  -- The printer's parentheses make no difference to the reduction, so they can be left out.
  have hdrop : u.dropGroups = (Term.bind n v).dropGroups := by
    rw [hu, Term.dropGroups, hv.dropGroups_eq]
  obtain ⟨hout, hstate⟩ := reduce_regrouped hdrop (bound + 1)
    { m.restart with names := m.restart.names.useAll u.names }
  rw [hdef] at hout hstate
  rw [evaluate, hx]
  refine ⟨hout, ?_, ?_⟩
  · rw [Run.state_cons, hstate]
    rfl
  · rw [Run.state_cons, hstate]
    rfl

/-! ## Loading -/

/-- Source lines are evaluated one after another, each to a value within `bound` steps and without a
single contraction. The state is `m'` in the end. -/
inductive Loads (bound : Nat) : Evaluator κ → List String → Evaluator κ → Prop where
  | nil (m : Evaluator κ) : Loads bound m [] m
  | cons {line : String} {lines : List String} {t v : Term κ} {m m' : Evaluator κ}
      (ht : Term.parse line = .ok t) (hv : (evaluate bound t m).outcome = .ok v)
      (hsteps : (evaluate bound t m).state.steps = 0)
      (h : Loads bound (evaluate bound t m).state lines m') :
    Loads bound m (line :: lines) m'

/-- The definitions of normal terms are loaded, in every state, and leave what they define. -/
theorem loads_definitions (bound : Nat) {es : List (String × Term κ)}
    (hes : ∀ e ∈ es, e.2.Normal ∧ (Term.bind e.1 e.2).WellNamed) (m : Evaluator κ) :
    ∃ m', Loads (bound + 1) m (es.map fun e => e.1 ++ " <- " ++ e.2.text) m' ∧
      m'.environment = m.environment.putAll es := by
  induction es generalizing m with
  | nil => exact ⟨m, .nil m, rfl⟩
  | cons e es ih =>
    obtain ⟨hv, hwell⟩ := hes e (.head _)
    obtain ⟨u, hparse, hu⟩ := exists_parse_definition hv hwell
    obtain ⟨hout, hsteps, henv⟩ := evaluate_definition hv hu bound m
    obtain ⟨m', hload, henv'⟩ :=
      ih (fun e' he' => hes e' (.tail _ he')) (evaluate (bound + 1) u m).state
    refine ⟨m', .cons hparse hout hsteps hload, ?_⟩
    rw [henv', henv]
    rfl

end Evaluator

/-! ## The list of named values -/

namespace Shell

open Evaluator

/-- The lines that list an environment are the definitions of its values. -/
theorem map_entryLine (env : OrderedMap String Expr) :
    env.keys.map (entryLine env) = env.entries.map fun e => e.1 ++ " <- " ++ e.2.text := by
  rw [OrderedMap.keys, List.map_map]
  refine List.map_congr_left fun e he => ?_
  rw [Function.comp_apply, entryLine, OrderedMap.get?_of_mem_entries he]

/-- Saying lines one after another adds them to the log, and changes nothing else. -/
theorem foldl_say (f : String → String) (names : List String) (sh : Shell) :
    names.foldl (fun sh n => sh.say (f n)) sh
      = sh.report (·.notifyAll (names.map fun n => .say (f n))) := by
  induction names generalizing sh with
  | nil => simp [report, Session.report, Reporter.notifyAll]
  | cons n names ih =>
    rw [List.foldl_cons, ih]
    simp [say, report, Session.report, Reporter.notifyAll, Reporter.notify]

/-- In a shell whose evaluator has evaluated any series of source lines, whatever came of each, the
command `env` says lines of text that can be loaded: read and evaluated in their order by a new
evaluator without the prelude, whatever its budget and its other options, they succeed without a
contraction, and the environment they leave is that of the shell, with the same names in the same
order and the same values. -/
theorem feed_env_loads (o o' : Options) (lines : List (Nat × String)) (bound bound' : Nat)
    (sh : Shell) (h : sh.session.evaluator = afterLines o lines) :
    ∃ saved : List String,
      sh.feed bound "env" = (.ok false, sh.report (·.notifyAll (saved.map .say))) ∧
      ∃ m', Loads (bound' + 1) (new { o' with withPrelude := false }) saved m' ∧
        m'.environment = sh.session.evaluator.environment := by
  obtain ⟨hnormal, hspelled⟩ := holds_afterLines (κ := Empty) o lines
  rw [← h] at hnormal hspelled
  have hes : ∀ e ∈ sh.session.evaluator.environment.entries,
      e.2.Normal ∧ (Term.bind e.1 e.2).WellNamed := by
    intro e he
    have hget := OrderedMap.get?_of_mem_entries he
    exact ⟨hnormal _ _ hget, hspelled _ _ hget⟩
  obtain ⟨m', hload, henv⟩ :=
    loads_definitions bound' hes (new { o' with withPrelude := false })
  refine ⟨_, ?_, m', hload, ?_⟩
  · have hcommand : Command.ofLine "env" = .env [] := by cbv
    rw [feed, hcommand, obey, listValues, ← map_entryLine, List.map_map, foldl_say]
    rfl
  · rw [henv]
    exact OrderedMap.putAll_entries _

/-- After `A <- (\x.\y.x) y`, which draws a name, and `B <- A A A` the list is `A <- \a.y` and
`B <- y (\a.y)`. It is loaded by an evaluator that may not make any contraction. -/
theorem feed_env_loads_drawn :
    ∃ (sh : Shell) (saved : List String) (m' : Evaluator Empty),
      sh.session.evaluator = afterLines { withPrelude := false, budget := .atMost 1 }
        [(2, "A <- (\\x.\\y.x) y"), (2, "B <- A A A")] ∧
      sh.feed 0 "env" = (.ok false, sh.report (·.notifyAll (saved.map .say))) ∧
      saved = ["A <- \\a.y", "B <- y (\\a.y)"] ∧
      Loads 1 (new { withPrelude := false, budget := .atMost 0 }) saved m' ∧
      m'.environment = sh.session.evaluator.environment := by
  let sh : Shell := { session := ⟨Session.typedPath, {},
    afterLines { withPrelude := false, budget := .atMost 1 }
      [(2, "A <- (\\x.\\y.x) y"), (2, "B <- A A A")], .empty, []⟩ }
  have hlog : (sh.feed 0 "env").2.session.reporter.log
      = ["A <- \\a.y", "B <- y (\\a.y)"].map .say := by
    unfold sh
    cbv
  obtain ⟨saved, hfeed, m', hload, henv⟩ :=
    feed_env_loads _ { budget := .atMost 0 } _ 0 0 sh rfl
  rw [hfeed] at hlog
  have hsaved : saved = ["A <- \\a.y", "B <- y (\\a.y)"] :=
    List.map_injective_iff.2 (fun _ _ h => Notice.say.inj h) hlog
  exact ⟨sh, saved, m', rfl, hfeed, hsaved, hload, henv⟩

end Shell

end NormalOrder
