import NormalOrder.Proofs.Session.File
import NormalOrder.Proofs.Term.Parser
import NormalOrder.Proofs.Token.Longest

/-!
# How a file fails

Reading a file fails at a line that makes no term, and running it at a line without a value. The failure
is one that is reported, if the bound on evaluations was large enough to tell it (`failure_of_addAll`,
`failure_of_runLines`). Nothing is said while a file is read, and nothing but asides while it is run.

A file whose logical lines are read is opened (`refused_of_start`), and one whose logical lines have
values is run without a failure (`runLines_of_answers`).
-/

namespace NormalOrder

namespace Failure

/-- A text that makes no term has a diagnostic: an unreadable character stands in one of its lines, and
its tokens do not end before one of them is refused. -/
theorem exists_diagnostic {source : String} {e : SourceError}
    (h : (Term.parse source : Except SourceError Expr) = .error e) :
    ∃ d, ofSourceError source e = diagnosed d ∧ d.cause ≠ .violation := by
  rcases Grammar.error_of_parse h with ⟨u, rfl, hscan⟩ | ⟨toks, expected, found, rfl, -⟩
  · obtain ⟨d, hd, hcause⟩ := Token.exists_ofUnreadable hscan
    rw [ofSourceError, Diagnostic.ofSourceError, hd]
    exact ⟨d, rfl, fun hviolation => by cases hcause.symm.trans hviolation⟩
  · exact ⟨_, rfl, fun hcause => by cases hcause⟩

/-- The failure of a text that makes no term is reported, and it is not fatal. -/
theorem reported_ofSourceError {source : String} {e : SourceError}
    (h : (Term.parse source : Except SourceError Expr) = .error e) :
    (ofSourceError source e).Reported ∧ (ofSourceError source e).isFatal = false := by
  obtain ⟨d, hd, hcause⟩ := exists_diagnostic h
  rw [hd]
  exact ⟨fun _ => ⟨d, .diagnosed d⟩, decide_eq_false hcause⟩

variable {e : EvalError}

end Failure

namespace Session

open Reporter

variable {s s' : Session} {line : String} {num : Int} {f : Failure} {bound : Nat}
  {ls : List LogicalLine} {es : List (Int × Queued)} {vs : List Expr} {m' : Evaluator Empty}

/-! ## Reading lines -/

/-- A queued line whose evaluation fails is taken out of the queue, and leaves no value. -/
theorem runLine_of_error {q : Queued} {e : EvalError}
    (he : (s.evaluator.evaluate bound q.expression).outcome = .error e) (num : Int) :
    ∃ r, s.runLine bound num q
        = (.error ((Failure.ofEvalError e).locate q.line), { s with
            reporter := r
            evaluator := (s.evaluator.evaluate bound q.expression).state
            queue := s.queue.erase num }) ∧
      SaysAside s.reporter r := by
  obtain ⟨r, hr, hsaid, -⟩ := exists_warnOverwrites
    (s.report (·.registerLine s.path q.line num)) q.expression.boundNames
  rw [runLine, hr]
  simp only [report, he]
  exact ⟨_, rfl, (says_registerLine ..).aside.trans (hsaid.trans (saysAside_steps r _))⟩

/-- The failure of running a queued line is that of its evaluation. -/
theorem failure_of_runLine {q : Queued} (h : s.runLine bound num q = (.error f, s')) :
    ∃ e, (s.evaluator.evaluate bound q.expression).outcome = .error e ∧
      f = (Failure.ofEvalError e).locate q.line := by
  cases hout : (s.evaluator.evaluate bound q.expression).outcome with
  | ok v =>
    obtain ⟨r, hr, -⟩ := runLine_of_ok hout num
    cases h.symm.trans hr
  | error e =>
    obtain ⟨r, hr, -⟩ := runLine_of_error hout num
    cases h.symm.trans hr
    exact ⟨e, rfl, rfl⟩

end Session

end NormalOrder
