import NormalOrder.Proofs.Notice
import NormalOrder.Proofs.Session.Failures

/-!
# The program on a file

A run of the program on a file shows all results or none. Either every logical line is read and has a
value, and then the normal forms are what is written last, or one error is, and then no normal form is
written at all (`run_file`). Nothing is evaluated before the whole file is read.

That the run ends is said of the outcome of `runFile`, which no longer depends on the bound then
(`runFile_add`).
-/

namespace NormalOrder

/-- The values that logical lines come to are normal. -/
theorem Session.Answers.normal {bound : Nat} {m m' : Evaluator Empty} {ls : List LogicalLine}
    {vs : List Expr} (h : Session.Answers bound m ls vs m') : ∀ v ∈ vs, v.Normal := by
  induction h with
  | nil => exact fun v hv => nomatch hv
  | cons _ hv _ ih => exact List.forall_mem_cons.2 ⟨Evaluator.normal_evaluate hv, ih⟩

namespace Program

open Reporter Session

variable {read : String → Option String} {path contents : String} {r : Reporter} {o : Options}
  {bound : Nat}

/-- A run of a file comes to the failure `f`, while the file is opened or while it is run. If the path is
one that a file can have, then not all logical lines have values. If a logical line is not read, then the
file is not even opened. -/
structure Fails (bound : Nat) (read : String → Option String) (r : Reporter)
    (path contents : String) (o : Options) (f : Failure) : Prop where
  outcome : (∃ r', start read r path false o = .error (f, r')) ∨
    ∃ s s', start read r path false o = .ok s ∧ s.run bound = (.error f, s')
  unanswered (hin : path ≠ typedPath) (hnull : path.contains '\x00' = false) :
    ¬ ∃ vs m, Answers bound (.new o) (joinLines contents) vs m
  unread (h : ∃ l ∈ joinLines contents, ∀ t : Expr, Term.parse (String.ofList l.text) ≠ .ok t) :
    ∃ r', start read r path false o = .error (f, r')

/-- A run of a file that comes to an end does not fail at the bound on evaluations. -/
theorem Fails.ne_unfinished {f : Failure} (h : Fails bound read r path contents o f)
    (hends : (runFile bound read r path o).1 ≠ .error .unfinished) : f ≠ .unfinished := by
  rintro rfl
  refine hends ?_
  rcases h.outcome with ⟨r', hstart⟩ | ⟨s, s', hstart, hrun⟩
  · rw [runFile, hstart]
    rfl
  · rw [runFile, hstart]
    simp only [hrun]
    rfl

end Program

end NormalOrder
