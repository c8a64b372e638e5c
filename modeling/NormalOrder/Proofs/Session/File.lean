import Mathlib.Data.List.Forall2
import NormalOrder.Proofs.Evaluator.Outcome
import NormalOrder.Proofs.OrderedMap
import NormalOrder.Proofs.Reporter
import NormalOrder.Proofs.Session.Lines
import NormalOrder.Session

/-!
# Running a file

A file whose lines are all read and all have values is a series of evaluations (`Answers`): of its
logical lines, one after another, each in the state that the one before it left (`answers_of_run`).
Reading the file puts the logical lines into the queue, in their order, since no two have the same
number (`entries_addAll`); running the queue takes them out again in this order.

Each line is evaluated whatever was said before, and what it says are warnings and steps.
-/

namespace NormalOrder

namespace Session

open Reporter

variable {s s' : Session} {line : String} {num : Int} {t v : Expr} {bound : Nat}

/-! ## The queue -/

/-- A line that is read is put into the queue, and it is no longer registered. -/
theorem add_of_parse (h : Term.parse line = .ok t) (s : Session) (num : Int) :
    ∃ r, s.add line num
        = (.ok (), { s with reporter := r, queue := s.queue.put num ⟨line, t⟩ }) ∧
      Says [] s.reporter r ∧ (s.reporter.LinedOnly s.path → r.Unlined) := by
  rw [add, h]
  exact ⟨_, rfl, (says_registerLine ..).trans (says_registerFile ..),
    fun hlined => (hlined.registerLine line num).registerFile⟩

/-- Only a line that is read is put into the queue. -/
theorem parse_of_add (h : s.add line num = (.ok (), s')) : ∃ t : Expr, Term.parse line = .ok t := by
  rw [add] at h
  split at h
  · next t ht => exact ⟨t, ht⟩
  · cases h

/-- Nothing is said while a line is read. -/
theorem says_add (s : Session) (line : String) (num : Int) :
    Says [] s.reporter (s.add line num).2.reporter := by
  rw [add]
  split
  · exact (says_registerLine ..).trans (says_registerFile ..)
  · exact says_registerLine ..

/-- Nothing is said while lines are read. -/
theorem says_addAll (s : Session) (ls : List LogicalLine) :
    Says [] s.reporter (s.addAll ls).2.reporter := by
  induction ls generalizing s with
  | nil => exact .refl _
  | cons l ls ih =>
    have hfirst := says_add s (String.ofList l.text) l.number
    rw [addAll]
    split
    · next s₁ hadd =>
      rw [hadd] at hfirst
      exact hfirst.trans (ih s₁)
    · exact hfirst

/-- The entry of the queue that stands for a logical line. -/
structure Queues (l : LogicalLine) (e : Int × Queued) : Prop where
  number : e.1 = l.number
  line : e.2.line = String.ofList l.text
  parse : Term.parse (String.ofList l.text) = .ok e.2.expression

/-- Logical lines with increasing numbers, all higher than those in the queue, are queued one after
another. -/
theorem entries_addAll {ls : List LogicalLine} (h : s.addAll ls = (.ok (), s'))
    (hls : ls.Pairwise fun l l' => l.number < l'.number)
    (hqueue : ∀ k ∈ s.queue.keys, ∀ l ∈ ls, k < l.number) :
    s'.evaluator = s.evaluator ∧ s'.results = s.results ∧
      ∃ es, s'.queue.entries = s.queue.entries ++ es ∧ List.Forall₂ Queues ls es := by
  induction ls generalizing s with
  | nil =>
    cases h
    exact ⟨rfl, rfl, [], (List.append_nil _).symm, .nil⟩
  | cons l ls ih =>
    obtain ⟨hfirst, hrest⟩ := List.pairwise_cons.1 hls
    rw [addAll] at h
    split at h
    · next s₁ hadd =>
      obtain ⟨t, ht⟩ := parse_of_add hadd
      obtain ⟨r, hr, -⟩ := add_of_parse ht s l.number
      cases hadd.symm.trans hr
      have hnew : l.number ∉ s.queue.keys := by
        intro hmem
        have := hqueue l.number hmem l (.head _)
        omega
      have hkeys : ∀ k ∈ (s.queue.put l.number ⟨String.ofList l.text, t⟩).keys, ∀ l' ∈ ls,
          k < l'.number := by
        intro k hk l' hl'
        rw [OrderedMap.keys_put_of_not_mem hnew] at hk
        rcases List.mem_append.1 hk with hk | hk
        · exact hqueue k hk l' (.tail _ hl')
        · rw [List.mem_singleton.1 hk]
          exact hfirst l' hl'
      obtain ⟨heval, hres, es, hentries, hes⟩ := ih h hrest hkeys
      refine ⟨heval, hres, (l.number, ⟨String.ofList l.text, t⟩) :: es, ?_, .cons ⟨rfl, rfl, ht⟩ hes⟩
      rw [hentries, OrderedMap.entries_put hnew, List.append_assoc]
      rfl
    · next hnot => exact (hnot s' h).elim

/-! ## Running the queue -/

/-- The diagnostics of those of a list of names that are bound already. -/
def overwriteDiagnostics (s : Session) (names : List String) : List Diagnostic :=
  (names.filter s.evaluator.environment.contains).map overwriteWarning

/-- To warn of names is to say the warnings, and nothing else is changed. -/
theorem warnOverwrites_eq (s : Session) (names : List String) :
    s.warnOverwrites names = s.report ((s.overwriteDiagnostics names).foldl Reporter.warn) := by
  rw [warnOverwrites, overwriteDiagnostics]
  generalize names.filter s.evaluator.environment.contains = bound
  induction bound generalizing s with
  | nil => rfl
  | cons n bound ih => exact ih _

/-- Warnings of names that are bound already are all that they leave. -/
theorem exists_warnOverwrites (s : Session) (names : List String) :
    ∃ r, s.warnOverwrites names = { s with reporter := r } ∧ SaysAside s.reporter r ∧
      r.traceback = s.reporter.traceback := by
  refine ⟨_, warnOverwrites_eq s names, saysAside_foldl_warn .., ?_⟩
  show ((s.overwriteDiagnostics names).foldl Reporter.warn s.reporter).traceback = _
  rw [foldl_warn]
  rfl

/-- A queued line that has a value is taken out of the queue and leaves the value, and it is no longer
registered. -/
theorem runLine_of_ok {q : Queued}
    (h : (s.evaluator.evaluate bound q.expression).outcome = .ok v) (num : Int) :
    ∃ r, s.runLine bound num q
        = (.ok (), { s with
            reporter := r
            evaluator := (s.evaluator.evaluate bound q.expression).state
            queue := s.queue.erase num
            results := s.results ++ [v] }) ∧
      SaysAside s.reporter r ∧ (s.reporter.LinedOnly s.path → r.Unlined) := by
  obtain ⟨r, hr, hsaid, hlines⟩ := exists_warnOverwrites
    (s.report (·.registerLine s.path q.line num)) q.expression.boundNames
  rw [runLine, hr]
  simp only [report, h]
  refine ⟨_, rfl, (says_registerLine ..).aside.trans
    (hsaid.trans ((saysAside_steps r _).trans (says_registerFile ..).aside)), fun hlined => ?_⟩
  refine LinedOnly.registerFile ?_
  rw [LinedOnly, traceback_steps, hlines]
  exact hlined.registerLine q.line num

/-- Only a queued line that has a value is run without a failure. -/
theorem ok_of_runLine {q : Queued} (h : s.runLine bound num q = (.ok (), s')) :
    ∃ v, (s.evaluator.evaluate bound q.expression).outcome = .ok v := by
  obtain ⟨r, hr, -⟩ := exists_warnOverwrites
    (s.report (·.registerLine s.path q.line num)) q.expression.boundNames
  rw [runLine, hr] at h
  simp only [report] at h
  split at h
  · cases h
  · next v hv => exact ⟨v, hv⟩

/-- A queue of one line is run by running the line. -/
theorem run_put_empty {q : Queued} (h : s.queue = OrderedMap.empty.put num q) :
    s.run bound = s.runLine bound num q := by
  have hentries : s.queue.entries = [(num, q)] := by
    rw [h]
    exact OrderedMap.entries_put List.not_mem_nil q
  rw [run, hentries, runLines]
  split
  · next hrun =>
    rw [hrun]
    rfl
  · rfl

/-- Logical lines are evaluated one after another, each to a value within `bound` steps. The values are
`vs`, and the state is `m'` in the end. -/
inductive Answers (bound : Nat) :
    Evaluator Empty → List LogicalLine → List Expr → Evaluator Empty → Prop where
  | nil (m : Evaluator Empty) : Answers bound m [] [] m
  | cons {l : LogicalLine} {ls : List LogicalLine} {t v : Expr} {vs : List Expr}
      {m m' : Evaluator Empty} (ht : Term.parse (String.ofList l.text) = .ok t)
      (hv : (m.evaluate bound t).outcome = .ok v)
      (h : Answers bound (m.evaluate bound t).state ls vs m') :
    Answers bound m (l :: ls) (v :: vs) m'

/-- Logical lines that have values are read. -/
theorem Answers.parse {m m' : Evaluator Empty} {ls : List LogicalLine} {vs : List Expr}
    (h : Answers bound m ls vs m') :
    ∀ l ∈ ls, ∃ t : Expr, Term.parse (String.ofList l.text) = .ok t := by
  induction h with
  | nil => exact fun l hl => nomatch hl
  | cons ht _ _ ih => exact List.forall_mem_cons.2 ⟨⟨_, ht⟩, ih⟩

/-- Logical lines that have values within a bound have the same values within every larger bound. -/
theorem Answers.add {m m' : Evaluator Empty} {ls : List LogicalLine} {vs : List Expr}
    (h : Answers bound m ls vs m') (k : Nat) : Answers (bound + k) m ls vs m' := by
  induction h with
  | nil m => exact .nil m
  | @cons l ls t v vs m m' ht hv _ ih =>
    have hadd : m.evaluate (bound + k) t = m.evaluate bound t :=
      Evaluator.evaluate_add (by rw [hv]; exact nofun) k
    refine .cons ht (by rw [hadd]; exact hv) ?_
    rw [hadd]
    exact ih

/-- Running queued lines without a failure evaluates them one after another. -/
theorem answers_of_runLines {ls : List LogicalLine} {es : List (Int × Queued)}
    (hes : List.Forall₂ Queues ls es) (h : s.runLines bound es = (.ok (), s')) :
    ∃ vs, Answers bound s.evaluator ls vs s'.evaluator ∧ s'.results = s.results ++ vs := by
  induction hes generalizing s with
  | nil =>
    cases h
    exact ⟨[], .nil _, (List.append_nil _).symm⟩
  | @cons l e ls es hl _ ih =>
    obtain ⟨num, q⟩ := e
    rw [runLines] at h
    split at h
    · next s₁ hrun =>
      obtain ⟨v, hv⟩ := ok_of_runLine hrun
      obtain ⟨r, hr, -⟩ := runLine_of_ok hv num
      cases hrun.symm.trans hr
      obtain ⟨vs, hvs, hres⟩ := ih h
      refine ⟨v :: vs, .cons hl.parse hv hvs, ?_⟩
      rw [hres, List.append_assoc]
      rfl
    · next hnot => exact (hnot s' h).elim

/-! ## Files -/

/-- A session that was opened on a file: the logical lines of the file are queued in their order, and
nothing was said or evaluated. -/
structure Opened (contents : String) (o : Options) (r : Reporter) (s : Session) : Prop where
  silent : Says [] r s.reporter
  evaluator : s.evaluator = .new o
  results : s.results = []
  queue : List.Forall₂ Queues (joinLines contents) s.queue.entries

/-- The session of a file that is opened without a failure. -/
theorem opened_of_start {read : String → Option String} {r : Reporter} {path contents : String}
    {o : Options} (hread : read path = some contents)
    (hstart : start read r path false o = .ok s) : Opened contents o r s := by
  rw [start] at hstart
  simp only [Bool.false_eq_true, if_false, hread] at hstart
  split at hstart
  · cases hstart
  · split at hstart
    · cases hstart
    · split at hstart
      · next s₁ hadd =>
        cases hstart
        have hsaid := says_addAll ⟨path, r.registerFile path, .new o, .empty, []⟩ (joinLines contents)
        rw [hadd] at hsaid
        have hnone : ∀ w ∈ (none : Option LogicalLine), w.number < 1 := nofun
        have hsorted : (joinLines contents).Pairwise fun l l' => l.number < l'.number := by
          rw [joinLines_eq_gather]
          exact pairwise_gather hnone _
        obtain ⟨heval, hres, es, hentries, hes⟩ := entries_addAll hadd hsorted nofun
        have hqueue : s.queue.entries = es := hentries
        exact ⟨(says_registerFile r path).trans hsaid, heval, hres, hqueue ▸ hes⟩
      · cases hstart

/-- A file that is opened without a failure and run without a failure has values for all its logical
lines, and they are the results. -/
theorem answers_of_run {read : String → Option String} {r : Reporter} {path contents : String}
    {o : Options} (hread : read path = some contents)
    (hstart : start read r path false o = .ok s) (hrun : s.run bound = (.ok (), s')) :
    Answers bound (.new o) (gather none 1 (Text.fileLines contents.toList)) s'.results
      s'.evaluator := by
  have hopened := opened_of_start hread hstart
  obtain ⟨vs, hvs, hresults⟩ := answers_of_runLines hopened.queue hrun
  rw [hopened.evaluator, joinLines_eq_gather] at hvs
  rw [hopened.results] at hresults
  rw [hresults]
  exact hvs

end Session

end NormalOrder
