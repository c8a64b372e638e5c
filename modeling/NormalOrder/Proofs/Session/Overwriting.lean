import NormalOrder.Proofs.Session.History
import NormalOrder.Proofs.Session.Queue

/-!
# Warnings of overwriting

No value is overwritten in silence (`warns_overwritten`). Before a queued line is evaluated the session
warns of each binding in the line whose name has a value (`begun_eq`), and while it is evaluated
nothing but its steps is reported (`log_runLine`). That an evaluation stores values under no other names
than those its line binds, however much the terms that bind them are copied and moved, holds because the
values of the environment are normal, so that expansion brings in no binding (`Evaluator.get?_evaluate`).
They are normal in every session that can be reached.
-/

namespace NormalOrder

namespace Session

variable {s s₁ : Session} {num : Int} {q : Queued} {n : String}
  {before rest : List (Int × Queued)} {bound : Nat}

/-- The session in which a queued line is evaluated: the line is registered, and what it would overwrite
has been warned of. -/
def begun (s : Session) (num : Int) (q : Queued) : Session :=
  (s.report (·.registerLine s.path q.line num)).warnOverwrites q.expression.boundNames

/-- The warnings that are given of what a queued line would overwrite, while the line is registered. -/
def warningsOf (s : Session) (num : Int) (q : Queued) : List Notice :=
  let r := s.reporter.registerLine s.path q.line num
  (q.expression.boundNames.filter s.evaluator.environment.contains).map fun n =>
    .warning (r.placeOf (overwriteWarning n)) (overwriteWarning n)

/-- Nothing has been done when the evaluation of a line begins but to say the warnings. -/
theorem begun_eq (s : Session) (num : Int) (q : Queued) :
    s.begun num q
      = s.report fun r => (r.registerLine s.path q.line num).notifyAll (s.warningsOf num q) := by
  rw [begun, warnOverwrites_eq, report, Reporter.foldl_warn, overwriteDiagnostics, List.map_map]
  rfl

/-- After the warnings nothing is said but the steps of the evaluation. -/
theorem log_runLine (bound : Nat) (s : Session) (num : Int) (q : Queued) :
    ∃ steps, (s.runLine bound num q).2.reporter.log = (s.begun num q).reporter.log ++ steps ∧
      ∀ n ∈ steps, ∃ tag text, n = Notice.step tag text := by
  have hlog : (s.runLine bound num q).2.reporter.log
      = ((s.begun num q).reporter.steps
          ((s.begun num q).evaluator.evaluate bound q.expression).trace).log := by
    rw [runLine, ← begun]
    dsimp only
    split <;> rfl
  obtain ⟨steps, hsteps, hsaid⟩ := Reporter.says_steps (s.begun num q).reporter
    ((s.begun num q).evaluator.evaluate bound q.expression).trace
  exact ⟨steps, hlog.trans hsaid.log, hsteps⟩

/-- A name that loses its value while a queued line is run has been warned of. -/
theorem warned_of_lost {o : Options} {calls : List (Evaluator.Call Empty)} {v : Expr}
    (h : s.evaluator = .after o calls) (hv : s.evaluator.environment.get? n = some v)
    (hlost : (s.runLine bound num q).2.evaluator.environment.get? n ≠ some v) :
    ∃ place, .warning place (overwriteWarning n) ∈ s.warningsOf num q := by
  have hmem : n ∈ q.expression.boundNames := by
    -- A name that the line does not bind keeps its value, whatever is substituted into what.
    by_contra hn
    have henv : s.evaluator.environment.HoldsNormal := by
      rw [h]
      exact Evaluator.holdsNormal_after o calls
    rw [evaluator_runLine, Evaluator.get?_evaluate henv hn] at hlost
    exact hlost hv
  have hbound : s.evaluator.environment.contains n = true := by
    rw [OrderedMap.contains, hv]
    rfl
  exact ⟨_, List.mem_map_of_mem (List.mem_filter.2 ⟨hmem, hbound⟩)⟩

/-- No value is overwritten in silence. In every session that can be reached, at every line of the queue
that a run comes to, whatever becomes of the line. Before the line is evaluated the warnings are said of its
bindings whose names have values, and nothing else is done; then it is evaluated, and nothing else is said
but the steps of the evaluation. Every name that had a value and has not this value any more afterwards is
among those warned of. -/
theorem warns_overwritten (hs : s.Reachable) (bound : Nat)
    (hq : s.queue.entries = before ++ (num, q) :: rest)
    (hbefore : s.runLines bound before = (.ok (), s₁)) :
    s.run bound = s₁.runLines bound ((num, q) :: rest) ∧
      (s₁.begun num q).evaluator = s₁.evaluator ∧
      (s₁.begun num q).reporter.log = s₁.reporter.log ++ s₁.warningsOf num q ∧
      (s₁.runLine bound num q).2.evaluator
        = ((s₁.begun num q).evaluator.evaluate bound q.expression).state ∧
      (∃ steps, (s₁.runLine bound num q).2.reporter.log = (s₁.begun num q).reporter.log ++ steps ∧
        ∀ n ∈ steps, ∃ tag text, n = Notice.step tag text) ∧
      ∀ n v, s₁.evaluator.environment.get? n = some v →
        (s₁.runLine bound num q).2.evaluator.environment.get? n ≠ some v →
        ∃ place, .warning place (overwriteWarning n) ∈ s₁.warningsOf num q := by
  have hbegun := begun_eq s₁ num q
  have hevaluator : (s₁.begun num q).evaluator = s₁.evaluator := by
    rw [hbegun]
    rfl
  obtain ⟨o, calls, hcalls⟩ := hs.exists_after
  obtain ⟨calls', hcalls'⟩ := exists_after_runLines hcalls bound before
  rw [hbefore] at hcalls'
  refine ⟨?_, hevaluator, ?_, ?_, log_runLine bound s₁ num q,
    fun n v hv hlost => warned_of_lost hcalls' hv hlost⟩
  · rw [run, hq, runLines_append hbefore]
  · rw [hbegun]
    rfl
  · rw [hevaluator, evaluator_runLine]

/-- `y` is stored under `N`, in the place of `x`, before the evaluation fails that may contract nothing. -/
theorem warns_overwritten_failing :
    ∃ (s s₁ : Session) (first q : Queued),
      s.Reachable ∧ s.queue.entries = [(1, first)] ++ (2, q) :: [] ∧
      s.runLines 2 [(1, first)] = (.ok (), s₁) ∧
      s₁.evaluator.environment.get? "N" = some (.var "x") ∧
      (s₁.runLine 2 2 q).2.evaluator.environment.get? "N" = some (.var "y") ∧
      (s₁.evaluator.evaluate 2 q.expression).outcome = .error (.overBudget 0) ∧
      ∃ place, .warning place (overwriteWarning "N") ∈ s₁.warningsOf 2 q := by
  let m : Evaluator Empty := .new { withPrelude := false, budget := .atMost 0 }
  let first : Queued := ⟨"N <- x", .bind "N" (.var "x")⟩
  let q : Queued := ⟨"(N <- y) ((\\z.z) N)", .app (.group (.bind "N" (.var "y")))
    (.group (.app (.group (.lam "z" (.var "z"))) (.metavar "N" (some ⟨1, 18⟩))))⟩
  obtain ⟨r, hr⟩ : ∃ r, start (fun _ => none) {} typedPath true
      { withPrelude := false, budget := .atMost 0 } = .ok ⟨typedPath, r, m, .empty, []⟩ := ⟨_, rfl⟩
  have hparse₁ : Term.parse first.line = .ok first.expression := by decide +kernel
  have hparse₂ : Term.parse q.line = .ok q.expression := by decide +kernel
  obtain ⟨r₁, hr₁, -⟩ := add_of_parse hparse₁ ⟨typedPath, r, m, .empty, []⟩ 1
  obtain ⟨r₂, hr₂, -⟩ := add_of_parse hparse₂ ⟨typedPath, r₁, m, .put .empty 1 first, []⟩ 2
  let s : Session := ⟨typedPath, r₂, m, .put (.put .empty 1 first) 2 q, []⟩
  have hs : s.Reachable := by
    have hfirst := Reachable.add (.start hr) first.line 1
    rw [hr₁] at hfirst
    have hsecond := hfirst.add q.line 2
    rw [hr₂] at hsecond
    exact hsecond
  have hq : s.queue.entries = [(1, first)] ++ (2, q) :: [] := rfl
  let m₁ : Evaluator Empty := (m.evaluate 2 first.expression).state
  have hv : (m.evaluate 2 first.expression).outcome = .ok (.var "x") := by decide +kernel
  obtain ⟨r₃, hr₃, -⟩ := runLine_of_ok (s := s) hv 1
  let s₁ : Session := ⟨typedPath, r₃, m₁, s.queue.erase 1, [.var "x"]⟩
  have hbefore : s.runLines 2 [(1, first)] = (.ok (), s₁) := by
    rw [runLines, hr₃]
    rfl
  have hx : m₁.environment.get? "N" = some (.var "x") := by decide +kernel
  have hy : (m₁.evaluate 2 q.expression).state.environment.get? "N" = some (.var "y") := by
    decide +kernel
  have hfails : (m₁.evaluate 2 q.expression).outcome = .error (.overBudget 0) := by decide +kernel
  rw [← evaluator_runLine 2 s₁ 2 q] at hy
  have hlost : (s₁.runLine 2 2 q).2.evaluator.environment.get? "N" ≠ some (.var "x") := by
    rw [hy]
    decide
  obtain ⟨-, -, -, -, -, hwarned⟩ := warns_overwritten hs 2 hq hbefore
  exact ⟨s, s₁, first, q, hs, hq, hbefore, hx, hy, hfails, hwarned "N" _ hx hlost⟩

end Session

end NormalOrder
