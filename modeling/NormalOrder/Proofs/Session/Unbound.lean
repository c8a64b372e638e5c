import NormalOrder.Proofs.Diagnostic.Span
import NormalOrder.Proofs.Evaluator.Unbound
import NormalOrder.Proofs.Session.History
import NormalOrder.Proofs.Session.Queue
import NormalOrder.Proofs.Term.Metavariables

/-!
# Where a line lacks a value

A run that comes to a line with a metavariable without a value points at the first of them in the line
(`caret_of_unbound`). The place is the one that was noted when the line was read, and it is right for three
reasons. What waits in the queue was read from its line (`Reachable.queueParsed`). The metavariables of a
term stand where they say, from left to right (`metavars_of_parse`). And the evaluation blames the first of
the line's own metavariables, since the values that it puts into the line have none
(`Evaluator.evaluate_eq_unbound_iff`).
-/

namespace NormalOrder

open Token

/-! ## The first metavariable without a value -/

/-- The first metavariable without a value comes before the others in every order that the metavariables
are listed in. -/
theorem Term.first_of_find? {t : Expr} {env : OrderedMap String Expr} {n n' : String}
    {l l' : Option Location} {R : String × Option Location → String × Option Location → Prop}
    (hlist : t.metavars.Pairwise R)
    (h : t.subterms.find? (·.isUnboundIn env) = some (.metavar n l))
    (hmem : .metavar n' l' ∈ t.subterms) (hn : env.contains n' = false) :
    (n', l') = (n, l) ∨ R (n, l) (n', l') := by
  obtain ⟨-, past, future, hsplit, hpast⟩ := List.find?_eq_some_iff_append.1 h
  have hunbound : (Term.metavar n' l').isUnboundIn env = true :=
    Term.isUnboundIn_iff.2 ⟨n', l', rfl, hn⟩
  -- Nothing before the first lacks a value, so the other one is listed with it or after it.
  rw [hsplit] at hmem
  rcases List.mem_append.1 hmem with hmem | hmem
  · have hnot := hpast _ hmem
    rw [hunbound] at hnot
    cases hnot
  · rcases List.mem_cons.1 hmem with heq | hmem
    · cases heq
      exact .inl rfl
    · rw [metavars, hsplit, List.filterMap_append, List.filterMap_cons] at hlist
      have hlater := (List.pairwise_append.1 hlist).2.1
      exact .inr ((List.pairwise_cons.1 hlater).1 _ (List.mem_filterMap.2 ⟨_, hmem, rfl⟩))

/-! ## Lines -/

/-- In a text of one line a name stands where its column says. -/
theorem WrittenAt.exists_split {line n : String} {l : Option Location} (h : WrittenAt line n l)
    (hline : ∀ c ∈ line.toList, inLine c = true) :
    ∃ left right, line.toList = left ++ (n.toList ++ right) ∧ l = some ⟨1, 1 + left.length⟩ := by
  obtain ⟨-, left, right, hsplit, hl⟩ := h
  refine ⟨left, right, hsplit, hl.trans (congrArg some ?_)⟩
  refine placeAfter_append [] fun c hc => hline c ?_
  rw [hsplit]
  exact List.mem_append_left _ hc

/-- A name that is pointed at in its line. -/
theorem Diagnostic.pointsAt_locate {line n : String} {left right : List Char}
    (h : line.toList = left ++ (n.toList ++ right)) :
    ((unboundName n (some ⟨1, 1 + left.length⟩)).locate line).PointsAt left n.toList right := by
  have hstart : (1 + left.length : Int) - 1 = left.length := by omega
  refine ⟨h, hstart, ?_⟩
  show (1 + left.length : Int) - 1 + n.length = left.length + n.toList.length
  rw [hstart, String.length_toList]

namespace Session

variable {s s' s₁ : Session} {num : Int} {q : Queued} {d : Diagnostic} {n : String} {l : Option Location}
  {before rest : List (Int × Queued)} {bound : Nat}

/-! ## The queue -/

/-- What waits in the queue was read from its line. -/
def QueueParsed (s : Session) : Prop :=
  ∀ e ∈ s.queue.entries, Term.parse e.2.line = .ok e.2.expression

/-- A line is queued with the term that it is read as. -/
theorem QueueParsed.add (h : s.QueueParsed) (line : String) (num : Int) :
    (s.add line num).2.QueueParsed := by
  cases ht : (Term.parse line : Except SourceError Expr) with
  | error e =>
    obtain ⟨r, hr⟩ := add_of_error ht s num
    rw [hr]
    exact h
  | ok t =>
    obtain ⟨r, hr, -⟩ := add_of_parse ht s num
    rw [hr]
    intro e he
    rcases OrderedMap.mem_entries_put he with rfl | ⟨he, -⟩
    · exact ht
    · exact h e he

/-- Lines are queued with the terms that they are read as. -/
theorem QueueParsed.addAll (h : s.QueueParsed) (ls : List LogicalLine) : (s.addAll ls).2.QueueParsed := by
  induction ls generalizing s with
  | nil => exact h
  | cons l ls ih =>
    have hfirst := h.add (String.ofList l.text) l.number
    rw [Session.addAll]
    split
    · next s₁ hadd =>
      rw [hadd] at hfirst
      exact ih hfirst
    · exact hfirst

/-- In every session that can be reached what waits was read from its line. -/
theorem Reachable.queueParsed (h : s.Reachable) : s.QueueParsed := by
  induction h with
  | @start read r path typed o s h =>
    obtain ⟨ls, hls⟩ := exists_addAll_of_start h
    have hempty : (opening r path typed o).QueueParsed := fun _ he => absurd he List.not_mem_nil
    have hadd := hempty.addAll ls
    rw [hls] at hadd
    exact hadd
  | add _ line num ih => exact ih.add line num
  | @run s _ bound ih =>
    obtain ⟨done, hdone, -⟩ := works_run bound s
    intro e he
    exact ih e (hdone ▸ List.mem_append_right done he)
  | @pop s _ ih =>
    rw [Session.pop]
    split <;> exact ih
  | report _ _ ih => exact ih

/-! ## Runs -/

/-- A line that lacks a value fails over the metavariable that the evaluation blames, and points at it. -/
theorem unbound_of_runLine (h : s.runLine bound num q = (.error (.diagnosed d), s'))
    (hd : d.cause = .unbound n l) :
    (s.evaluator.evaluate bound q.expression).outcome = .error (.unbound n l) ∧
      d = (Diagnostic.unboundName n l).locate q.line := by
  obtain ⟨e, he, hf⟩ := failure_of_runLine h
  cases e with
  | unbound n' l' =>
    cases hf
    cases hd
    exact ⟨he, rfl⟩
  | overBudget =>
    cases hf
    cases hd
  | violation v =>
    cases hf
    cases v <;> cases hd
  | blankBudget | unfinished => cases hf

/-- In every session that can be reached, where a run fails over a metavariable without a value, at a line of
the queue that is one line of text. The diagnostic shows the line and points at the name of this metavariable,
where it was written. The metavariable is one of the line that has no value as the evaluation of the line
begins, and all others of the line that have none were written further right. Below the line, which is shown
as it is, the caret stands under the first character of the name and a tilde under each further one. -/
theorem caret_of_unbound (hs : s.Reachable)
    (hq : s.queue.entries = before ++ (num, q) :: rest)
    (hbefore : s.runLines bound before = (.ok (), s₁))
    (hline : ∀ c ∈ q.line.toList, inLine c = true)
    (h : s₁.runLine bound num q = (.error (.diagnosed d), s')) (hd : d.cause = .unbound n l) :
    s.run bound = (.error (.diagnosed d), s') ∧ d.subject = q.line ∧
      (∃ left right, d.PointsAt left n.toList right ∧ l = some ⟨1, 1 + left.length⟩) ∧
      Text.slice q.line d.start d.stop = n ∧
      .metavar n l ∈ q.expression.subterms ∧ s₁.evaluator.environment.contains n = false ∧
      (∀ n' l', .metavar n' l' ∈ q.expression.subterms →
        s₁.evaluator.environment.contains n' = false →
        ∃ left right, q.line.toList = left ++ (n'.toList ++ right) ∧ l' = some ⟨1, 1 + left.length⟩ ∧
          ((n', l') = (n, l) ∨ d.start < left.length)) ∧
      ∀ colour, d.excerpt .plain colour = "  " ++ q.line ++ "\n" ++ "  " ++ Text.repeated d.start ' '
        ++ "^" ++ Text.repeated (n.length - 1) '~' := by
  obtain ⟨o, calls, hcalls⟩ := hs.exists_after
  obtain ⟨calls', hcalls'⟩ := exists_after_runLines hcalls bound before
  rw [hbefore] at hcalls'
  have henv : s₁.evaluator.environment.HoldsNormal := by
    rw [hcalls']
    exact Evaluator.holdsNormal_after o calls'
  have hparse := hs.queueParsed (num, q) (by rw [hq]; exact List.mem_append_right _ (.head _))
  obtain ⟨hwritten, hlist⟩ := metavars_of_parse hparse
  obtain ⟨he, rfl⟩ := unbound_of_runLine h hd
  have hfirst := (Evaluator.evaluate_eq_unbound_iff henv q.expression.lacks_constant).1 he
  have hmem := List.mem_of_find?_eq_some hfirst
  have hnone : s₁.evaluator.environment.contains n = false := by
    obtain ⟨_, _, heq, hnone⟩ := Term.isUnboundIn_iff.1 (List.find?_some hfirst)
    cases heq
    exact hnone
  obtain ⟨left, right, hsplit, rfl⟩ := (hwritten n l hmem).exists_split hline
  have hpoints := Diagnostic.pointsAt_locate hsplit
  have hne : n.toList ≠ [] := fun hnil => (hwritten n _ hmem).1 (String.toList_eq_nil_iff.1 hnil)
  refine ⟨?_, rfl, ⟨left, right, hpoints, rfl⟩, ?_, hmem, hnone, fun n' l' hmem' hnone' => ?_,
    fun colour => ?_⟩
  · rw [run, hq, runLines_append hbefore, runLines, h]
  · have hslice := hpoints.slice_eq
    rw [String.ofList_toList] at hslice
    exact hslice
  · obtain ⟨left', right', hsplit', rfl⟩ := (hwritten n' l' hmem').exists_split hline
    refine ⟨left', right', hsplit', rfl, ?_⟩
    refine (Term.first_of_find? hlist hfirst hmem' hnone').imp_right ?_
    rintro ⟨_, _, hl, hl', hlt⟩
    cases hl
    cases hl'
    rw [Precedes] at hlt
    rw [hpoints.start]
    dsimp only at hlt
    omega
  · rw [hpoints.excerpt_plain hne colour, hpoints.start, String.length_toList]
    rfl

/-- The second line of the queue uses the value that the first one stores. It fails over `K1`, to which it
would give a value itself. -/
theorem caret_of_unbound_second :
    ∃ (s s' : Session) (first q : Queued) (d : Diagnostic),
      s.Reachable ∧ s.queue.entries = [(1, first)] ++ (2, q) :: [] ∧
      q.line = "A (K1 <- x) (K1 B)" ∧ s.run 2 = (.error (.diagnosed d), s') ∧
      Text.slice q.line d.start d.stop = "K1" ∧
      d.excerpt .plain .red = "  A (K1 <- x) (K1 B)\n               ^~" := by
  let m : Evaluator Empty := .new { withPrelude := false }
  let first : Queued := ⟨"A <- x", .bind "A" (.var "x")⟩
  let q : Queued := ⟨"A (K1 <- x) (K1 B)",
    .app (.app (.metavar "A" (some ⟨1, 1⟩)) (.group (.bind "K1" (.var "x"))))
      (.group (.app (.metavar "K1" (some ⟨1, 14⟩)) (.metavar "B" (some ⟨1, 17⟩))))⟩
  obtain ⟨r, hr⟩ : ∃ r, start (fun _ => none) {} typedPath true { withPrelude := false }
      = .ok ⟨typedPath, r, m, .empty, []⟩ := ⟨_, rfl⟩
  have hparse₁ : Term.parse first.line = .ok first.expression := by decide +kernel
  have hparse₂ : Term.parse q.line = .ok q.expression := by decide +kernel
  obtain ⟨r₁, hr₁, -⟩ := add_of_parse hparse₁ ⟨typedPath, r, m, .empty, []⟩ 1
  obtain ⟨r₂, hr₂, -⟩ := add_of_parse hparse₂ ⟨typedPath, r₁, m, .put .empty 1 first, []⟩ 2
  let s : Session := ⟨typedPath, r₂, m, .put (.put .empty 1 first) 2 q, []⟩
  have hs : s.Reachable := by
    have hfirst := Reachable.add (.start hr) first.line 1
    rw [hr₁] at hfirst
    have hsecond := hfirst.add q.line 2
    rw [hr₂] at hsecond
    exact hsecond
  have hq : s.queue.entries = [(1, first)] ++ (2, q) :: [] := rfl
  let m₁ : Evaluator Empty := (m.evaluate 2 first.expression).state
  have hv : (m.evaluate 2 first.expression).outcome = .ok (.var "x") := by decide +kernel
  obtain ⟨r₃, hr₃, -⟩ := runLine_of_ok (s := s) hv 1
  let s₁ : Session := ⟨typedPath, r₃, m₁, s.queue.erase 1, [.var "x"]⟩
  have hbefore : s.runLines 2 [(1, first)] = (.ok (), s₁) := by
    rw [runLines, hr₃]
    rfl
  have hline : ∀ c ∈ q.line.toList, inLine c = true := by
    simp [q, inLine]
  have hfails : (m₁.evaluate 2 q.expression).outcome
      = .error (.unbound "K1" (some ⟨1, 14⟩)) := by decide +kernel
  obtain ⟨r₄, hr₄, -⟩ := runLine_of_error (s := s₁) hfails 2
  obtain ⟨hrun, -, -, hslice, -, -, -, hexcerpt⟩ := caret_of_unbound hs hq hbefore hline hr₄ rfl
  refine ⟨s, _, first, q, _, hs, hq, rfl, hrun, hslice, ?_⟩
  rw [hexcerpt]
  decide +kernel

end Session

end NormalOrder
