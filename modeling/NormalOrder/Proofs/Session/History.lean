import NormalOrder.Proofs.Evaluator.Persistence
import NormalOrder.Proofs.Session.Failures

/-!
# Histories of a session

A session that was opened adds lines, runs and gives its newest result away, and its reporter is used beside
it. What it is left as, by an operation that fails too, is where the next one begins
(`Session.Reachable`). Its evaluator has made nothing but a series of calls at any time, the evaluations of
the lines that were run (`Reachable.exists_after`).
-/

namespace NormalOrder.Session

/-- The sessions that an opened session comes to by its operations, which may fail, and by what is done to
its reporter. -/
inductive Reachable : Session → Prop where
  | start {read : String → Option String} {r : Reporter} {path : String} {typed : Bool} {o : Options}
      {s : Session} (h : Session.start read r path typed o = .ok s) : Reachable s
  | add {s : Session} (h : Reachable s) (line : String) (num : Int) : Reachable (s.add line num).2
  | run {s : Session} (h : Reachable s) (bound : Nat) : Reachable (s.run bound).2
  | pop {s : Session} (h : Reachable s) : Reachable s.pop.2
  | report {s : Session} (h : Reachable s) (f : Reporter → Reporter) : Reachable (s.report f)

variable {s s' : Session} {o : Options} {calls : List (Evaluator.Call Empty)}

/-- No line is evaluated when lines are read. -/
theorem evaluator_add (s : Session) (line : String) (num : Int) :
    (s.add line num).2.evaluator = s.evaluator := by
  rw [add]
  split <;> rfl

/-- No line is evaluated when lines are read. -/
theorem evaluator_addAll (s : Session) (ls : List LogicalLine) :
    (s.addAll ls).2.evaluator = s.evaluator := by
  induction ls generalizing s with
  | nil => rfl
  | cons l ls ih =>
    have hfirst := evaluator_add s (String.ofList l.text) l.number
    rw [addAll]
    split
    · next s₁ hadd =>
      rw [hadd] at hfirst
      exact (ih s₁).trans hfirst
    · exact hfirst

/-- The session that is opened on a path, before the file is read. -/
def opening (r : Reporter) (path : String) (typed : Bool) (o : Options) : Session :=
  ⟨path, if typed then { r.registerFile path with fatal := false } else r.registerFile path, .new o,
    .empty, []⟩

/-- A session that was opened has read the lines of its file, or none. -/
theorem exists_addAll_of_start {read : String → Option String} {r : Reporter} {path : String}
    {typed : Bool} (h : start read r path typed o = .ok s) :
    ∃ ls, (opening r path typed o).addAll ls = (.ok (), s) := by
  rw [start, ← opening] at h
  split at h
  · split at h
    · cases h
      exact ⟨[], rfl⟩
    · cases h
  · split at h
    · cases h
    · split at h
      · cases h
      · next contents _ =>
        split at h
        · next s' hs' =>
          cases h
          exact ⟨_, hs'⟩
        · cases h

/-- A session is opened with an evaluator that was just set up. -/
theorem evaluator_start {read : String → Option String} {r : Reporter} {path : String} {typed : Bool}
    (h : start read r path typed o = .ok s) : s.evaluator = .new o := by
  obtain ⟨ls, hls⟩ := exists_addAll_of_start h
  have hadd := evaluator_addAll (opening r path typed o) ls
  rw [hls] at hadd
  exact hadd

/-- A queued line that is run is evaluated. -/
theorem evaluator_runLine (bound : Nat) (s : Session) (num : Int) (q : Queued) :
    (s.runLine bound num q).2.evaluator = (s.evaluator.evaluate bound q.expression).state := by
  cases hout : (s.evaluator.evaluate bound q.expression).outcome with
  | ok v =>
    obtain ⟨r, hr, -⟩ := runLine_of_ok hout num
    rw [hr]
  | error e =>
    obtain ⟨r, hr, -⟩ := runLine_of_error hout num
    rw [hr]

/-- Queued lines that are run make further calls of the evaluator. -/
theorem exists_after_runLines (h : s.evaluator = .after o calls) (bound : Nat)
    (es : List (Int × Queued)) : ∃ calls', (s.runLines bound es).2.evaluator = .after o calls' := by
  induction es generalizing s calls with
  | nil => exact ⟨calls, h⟩
  | cons e es ih =>
    obtain ⟨num, q⟩ := e
    have hfirst : (s.runLine bound num q).2.evaluator
        = .after o (calls ++ [.evaluate bound q.expression]) := by
      rw [evaluator_runLine, h, Evaluator.after_concat]
      rfl
    rw [runLines]
    split
    · next s₁ hrun =>
      rw [hrun] at hfirst
      exact ih hfirst
    · exact ⟨_, hfirst⟩

/-- The evaluator of a session has made a series of calls. -/
theorem Reachable.exists_after (h : s.Reachable) : ∃ o calls, s.evaluator = .after o calls := by
  induction h with
  | @start _ _ _ _ o _ h => exact ⟨o, _, (evaluator_start h).trans (Evaluator.new_eq_after o)⟩
  | add _ line num ih =>
    rw [evaluator_add]
    exact ih
  | run _ bound ih =>
    obtain ⟨o, calls, hcalls⟩ := ih
    exact ⟨o, exists_after_runLines hcalls bound _⟩
  | @pop s _ ih =>
    rw [Session.pop]
    split <;> exact ih
  | report _ _ ih => exact ih

end NormalOrder.Session
