import NormalOrder.Proofs.Reporter.Lines
import NormalOrder.Proofs.Session.Overwriting
import NormalOrder.Proofs.Session.Unbound
import NormalOrder.Proofs.Term.Assignments

/-!
# Where warnings of overwriting point

The warnings that are given before a line is evaluated stand for the bindings of the line, in their order.
None of them knows where its binding was written, since a binding keeps its name alone: each is placed in
the column in which the name first occurs in the line (`firstColumn`). This is the column of the name that
is bound exactly if the name occurs nowhere further left (`columns_of_warnings`). Behind a reference to the
same name the warning points at the reference (`columns_of_warnings_reference`).

While a line is run it is the one that warnings are placed in, if the reporter has no line of another file.
The operations of a session register lines of its own file only (`Alone.linedOnly`).
-/

namespace NormalOrder

open Token

/-! ## First occurrences -/

/-- The column in which a name first occurs in a line. -/
def firstColumn (line name : String) : Int := ((Text.find name.toList line.toList).getD 0 : Nat) + 1

/-- Where a name stands in a line, its first occurrence is there or further left, and it is there if the
name does not occur further left. -/
theorem firstColumn_spec {line name : String} {left right : List Char}
    (h : line.toList = left ++ (name.toList ++ right)) :
    firstColumn line name ≤ 1 + left.length ∧
      (firstColumn line name = 1 + left.length ↔ ∀ left' right',
        line.toList = left' ++ (name.toList ++ right') → left.length ≤ left'.length) := by
  obtain ⟨before, after, hsplit, hfound, hfirst⟩ :=
    Text.exists_find (h ▸ List.infix_append' left name.toList right)
  have hcolumn : firstColumn line name = 1 + before.length := by
    rw [firstColumn, hfound, Option.getD_some, Int.add_comm]
  have hle := hfirst left right h
  rw [hcolumn]
  refine ⟨by omega, fun heq left' right' h' => ?_, fun hleast => ?_⟩
  · have := hfirst left' right' h'
    omega
  · have := hleast before after hsplit
    omega

namespace Session

variable {s s₁ : Session} {num : Int} {q : Queued} {before rest : List (Int × Queued)} {bound : Nat}

/-! ## Lines of one file -/

/-- A line that is added is registered under the file of the session. -/
theorem linedOnly_add (h : s.reporter.LinedOnly s.path) (line : String) (num : Int) :
    (s.add line num).2.path = s.path ∧ (s.add line num).2.reporter.LinedOnly s.path := by
  have hline := h.registerLine line num
  rw [add]
  split
  · exact ⟨rfl, hline.registerFile.linedOnly⟩
  · exact ⟨rfl, hline⟩

/-- Lines that are added are registered under the file of the session. -/
theorem linedOnly_addAll (h : s.reporter.LinedOnly s.path) (ls : List LogicalLine) :
    (s.addAll ls).2.path = s.path ∧ (s.addAll ls).2.reporter.LinedOnly s.path := by
  induction ls generalizing s with
  | nil => exact ⟨rfl, h⟩
  | cons l ls ih =>
    obtain ⟨hpath, hfirst⟩ := linedOnly_add h (String.ofList l.text) l.number
    rw [addAll]
    split
    · next s₁ hadd =>
      rw [hadd] at hpath hfirst
      rw [← hpath] at hfirst ⊢
      exact ih hfirst
    · exact ⟨hpath, hfirst⟩

/-- A line that is run is registered under the file of the session. -/
theorem linedOnly_runLine (h : s.reporter.LinedOnly s.path) (bound : Nat) (num : Int) (q : Queued) :
    (s.runLine bound num q).2.path = s.path ∧
      (s.runLine bound num q).2.reporter.LinedOnly s.path := by
  have hbegun := begun_eq s num q
  have hpath : (s.begun num q).path = s.path := by rw [hbegun]; rfl
  have hlined : (s.begun num q).reporter.LinedOnly s.path := by
    rw [hbegun]
    exact h.registerLine q.line num
  have hsteps : ((s.begun num q).reporter.steps
      ((s.begun num q).evaluator.evaluate bound q.expression).trace).LinedOnly s.path := by
    rw [Reporter.LinedOnly, Reporter.traceback_steps]
    exact hlined
  rw [runLine, ← begun]
  dsimp only
  split
  · exact ⟨hpath, hsteps⟩
  · refine ⟨hpath, Reporter.Unlined.linedOnly ?_⟩
    rw [report, report, hpath]
    exact hsteps.registerFile

/-- Lines that are run are registered under the file of the session. -/
theorem linedOnly_runLines (h : s.reporter.LinedOnly s.path) (bound : Nat) (es : List (Int × Queued)) :
    (s.runLines bound es).2.path = s.path ∧ (s.runLines bound es).2.reporter.LinedOnly s.path := by
  induction es generalizing s with
  | nil => exact ⟨rfl, h⟩
  | cons e es ih =>
    obtain ⟨hpath, hfirst⟩ := linedOnly_runLine h bound e.1 e.2
    rw [runLines]
    split
    · next s₁ hrun =>
      rw [hrun] at hpath hfirst
      rw [← hpath] at hfirst ⊢
      exact ih hfirst
    · exact ⟨hpath, hfirst⟩

/-- The sessions that are opened with a reporter that has no line registered, and come about by their
operations and by what is done to the reporter beside them, as long as this registers no line of a file. -/
inductive Alone : Session → Prop where
  | start {read : String → Option String} {r : Reporter} {path : String} {typed : Bool} {o : Options}
      {s : Session} (hr : r.Unlined) (h : Session.start read r path typed o = .ok s) : Alone s
  | add {s : Session} (h : Alone s) (line : String) (num : Int) : Alone (s.add line num).2
  | run {s : Session} (h : Alone s) (bound : Nat) : Alone (s.run bound).2
  | pop {s : Session} (h : Alone s) : Alone s.pop.2
  | report {s : Session} (h : Alone s) {f : Reporter → Reporter}
      (hf : ∀ path r, Reporter.LinedOnly path r → Reporter.LinedOnly path (f r)) : Alone (s.report f)

/-- A session that is alone can be reached. -/
theorem Alone.reachable (h : s.Alone) : s.Reachable := by
  induction h with
  | start _ h => exact .start h
  | add _ line num ih => exact ih.add line num
  | run _ bound ih => exact ih.run bound
  | pop _ ih => exact ih.pop
  | report _ _ ih => exact ih.report _

/-- A session that is alone registers lines of its own file only. -/
theorem Alone.linedOnly (h : s.Alone) : s.reporter.LinedOnly s.path := by
  induction h with
  | @start read r path typed o s hr h =>
    obtain ⟨ls, hls⟩ := exists_addAll_of_start h
    have hopening : (opening r path typed o).reporter.LinedOnly path := by
      have hunlined : (r.registerFile path).Unlined := hr.linedOnly.registerFile
      rw [opening]
      split
      · exact hunlined.linedOnly
      · exact hunlined.linedOnly
    obtain ⟨hpath, hlined⟩ := linedOnly_addAll (s := opening r path typed o) hopening ls
    rw [hls] at hpath hlined
    rw [hpath]
    exact hlined
  | add _ line num ih =>
    obtain ⟨hpath, hlined⟩ := linedOnly_add ih line num
    rw [hpath]
    exact hlined
  | run _ bound ih =>
    obtain ⟨hpath, hlined⟩ := linedOnly_runLines ih bound _
    rw [Session.run, hpath]
    exact hlined
  | @pop s _ ih =>
    rw [Session.pop]
    split <;> exact ih
  | report _ hf ih => exact hf _ _ ih

/-! ## Warnings -/

/-- The warnings of what a queued line would overwrite stand for those of its assignments whose names have
values. Each points at the first occurrence of its name. -/
theorem warningsOf_eq (h : s.reporter.LinedOnly s.path) {d : Grammar.Program}
    (hd : d.tree = q.expression) (num : Int) :
    s.warningsOf num q
      = (d.assigned.filter fun t => s.evaluator.environment.contains t.lexeme).map fun t =>
          .warning (some ⟨s.path, num, firstColumn q.line t.lexeme⟩) (overwriteWarning t.lexeme) := by
  rw [warningsOf, ← hd, d.boundNames_tree, List.filter_map, List.map_map]
  refine List.map_congr_left fun t _ => congrArg (Notice.warning · _) ?_
  have hcolumn : ((Text.find t.lexeme.toList q.line.toList).getD 0 : Nat) + (0 : Int) + 1
      = firstColumn q.line t.lexeme := by
    rw [Int.add_zero, firstColumn]
  rw [Reporter.placeOf, h.currentLine, ← hcolumn]
  rfl

/-- In every session that can be reached, whose reporter has no line of another file registered, at every
line of the queue that a run comes to and that is one line of text. The line has one derivation, and the
warnings that are said of the line, before the steps of its evaluation, stand for those of its assignments
whose names have values, in their order. The token of an assigned name stands in its column, and the warning
gives this column or one further left. It gives this one exactly if the name occurs nowhere further left in
the line. -/
theorem columns_of_warnings (hs : s.Reachable) (hlined : s.reporter.LinedOnly s.path)
    (hq : s.queue.entries = before ++ (num, q) :: rest)
    (hbefore : s.runLines bound before = (.ok (), s₁))
    (hline : ∀ c ∈ q.line.toList, inLine c = true) :
    s.run bound = s₁.runLines bound ((num, q) :: rest) ∧
      ∃ d : Grammar.Program,
        (scan origin q.line.toList).outcome = .ok d.tokens ∧ d.tree = q.expression ∧
        (∃ steps, (s₁.runLine bound num q).2.reporter.log
            = s₁.reporter.log ++ (d.assigned.filter fun t =>
                s₁.evaluator.environment.contains t.lexeme).map (fun t =>
                  .warning (some ⟨s.path, num, firstColumn q.line t.lexeme⟩)
                    (overwriteWarning t.lexeme)) ++ steps ∧
          ∀ n ∈ steps, ∃ tag text, n = Notice.step tag text) ∧
        ∀ t ∈ d.assigned, ∃ left right, q.line.toList = left ++ (t.lexeme.toList ++ right) ∧
          t.location = ⟨1, 1 + left.length⟩ ∧ firstColumn q.line t.lexeme ≤ t.location.col ∧
          (firstColumn q.line t.lexeme = t.location.col ↔ ∀ left' right',
            q.line.toList = left' ++ (t.lexeme.toList ++ right') → left.length ≤ left'.length) := by
  have hparse := hs.queueParsed (num, q) (by rw [hq]; exact List.mem_append_right _ (.head _))
  obtain ⟨toks, hscan, hread⟩ := Grammar.exists_scan_of_parse hparse
  obtain ⟨hended, -⟩ := tokens_of_scan hscan
  obtain ⟨d, rfl, htree⟩ := Grammar.exists_program_of_ofTokens hended hread
  obtain ⟨hpath, hlined₁⟩ := linedOnly_runLines hlined bound before
  rw [hbefore] at hpath hlined₁
  rw [← hpath] at hlined₁
  obtain ⟨steps, hsteps, hsaid⟩ := log_runLine bound s₁ num q
  refine ⟨by rw [run, hq, runLines_append hbefore], d, hscan, htree, ⟨steps, ?_, hsaid⟩,
    fun t ht => ?_⟩
  · rw [hsteps, begun_eq, ← hpath, ← warningsOf_eq hlined₁ htree]
    rfl
  · obtain ⟨left, right, hsplit, hlocation⟩ := (d.written_assigned hscan ht).exists_split hline
    obtain ⟨hle, hiff⟩ := firstColumn_spec hsplit
    refine ⟨left, right, hsplit, Option.some.inj hlocation, ?_⟩
    rw [Option.some.inj hlocation]
    exact ⟨hle, hiff⟩

/-- A session on typed lines that is alone has two lines queued, and has run the first. -/
theorem exists_second (o : Options) {first q : Queued} {v : Expr}
    (hfirst : Term.parse first.line = .ok first.expression)
    (hq : Term.parse q.line = .ok q.expression)
    (hv : ((Evaluator.new o).evaluate bound first.expression).outcome = .ok v) :
    ∃ s s₁ : Session, s.Alone ∧ s.queue.entries = [(1, first)] ++ (2, q) :: [] ∧
      s.runLines bound [(1, first)] = (.ok (), s₁) ∧ s.path = typedPath ∧ s₁.path = typedPath ∧
      s₁.evaluator = ((Evaluator.new o).evaluate bound first.expression).state ∧
      s₁.reporter.LinedOnly s₁.path := by
  obtain ⟨r, hr⟩ : ∃ r, start (fun _ => none) {} typedPath true o
      = .ok ⟨typedPath, r, .new o, .empty, []⟩ := ⟨_, rfl⟩
  obtain ⟨r₁, hr₁, -⟩ := add_of_parse hfirst ⟨typedPath, r, .new o, .empty, []⟩ 1
  obtain ⟨r₂, hr₂, -⟩ := add_of_parse hq ⟨typedPath, r₁, .new o, .put .empty 1 first, []⟩ 2
  let s : Session := ⟨typedPath, r₂, .new o, .put (.put .empty 1 first) 2 q, []⟩
  have hnone : ({} : Reporter).Unlined := List.forall_mem_nil _
  have hs : s.Alone := by
    have hone := Alone.add (.start hnone hr) first.line 1
    rw [hr₁] at hone
    have htwo := hone.add q.line 2
    rw [hr₂] at htwo
    exact htwo
  obtain ⟨r₃, hr₃, -, hunlined⟩ := runLine_of_ok (s := s) hv 1
  let s₁ : Session := ⟨typedPath, r₃, ((Evaluator.new o).evaluate bound first.expression).state,
    s.queue.erase 1, [v]⟩
  have hbefore : s.runLines bound [(1, first)] = (.ok (), s₁) := by
    rw [runLines, hr₃]
    rfl
  exact ⟨s, s₁, hs, rfl, hbefore, rfl, rfl, rfl, (hunlined hs.linedOnly).linedOnly⟩

/-- The derivation of a line that applies a name of one character to a binding of `N`. -/
def appliedToBinding (name : Grammar.Primary) : Grammar.Program where
  before := []
  binding := .term (.application (.mk name
    (.operand ⟨⟨.space, " ", ⟨1, 2⟩⟩, rfl⟩ []
      (.parens ⟨⟨.lparen, "(", ⟨1, 3⟩⟩, rfl⟩ []
        (.assign ⟨⟨.metavar, "N", ⟨1, 4⟩⟩, rfl⟩ [⟨⟨.space, " ", ⟨1, 5⟩⟩, rfl⟩]
          ⟨⟨.arrow, "<-", ⟨1, 6⟩⟩, rfl⟩ [⟨⟨.space, " ", ⟨1, 8⟩⟩, rfl⟩]
          (.term (.application (.mk (.var ⟨⟨.var, "y", ⟨1, 9⟩⟩, rfl⟩) .done))))
        [] ⟨⟨.rparen, ")", ⟨1, 10⟩⟩, rfl⟩)
      .done)))
  after := []
  eof := ⟨⟨.eof, "", ⟨1, 11⟩⟩, rfl⟩

/-- The only `N` of the second line is the one that is bound, and the warning points at it. -/
theorem columns_of_warnings_argument :
    ∃ (s s₁ : Session) (first q : Queued),
      s.Alone ∧ s.queue.entries = [(1, first)] ++ (2, q) :: [] ∧
      s.runLines 2 [(1, first)] = (.ok (), s₁) ∧ q.line = "x (N <- y)" ∧
      ∃ d : Grammar.Program, (scan origin q.line.toList).outcome = .ok d.tokens ∧
        d.assigned = [⟨.metavar, "N", ⟨1, 4⟩⟩] ∧
        ∃ steps, (s₁.runLine 2 2 q).2.reporter.log
          = s₁.reporter.log ++ .warning (some ⟨typedPath, 2, 4⟩) (overwriteWarning "N") :: steps := by
  let o : Options := { withPrelude := false }
  let first : Queued := ⟨"N <- x", .bind "N" (.var "x")⟩
  let q : Queued := ⟨"x (N <- y)", .app (.var "x") (.group (.bind "N" (.var "y")))⟩
  have hparse₁ : Term.parse first.line = .ok first.expression := by decide +kernel
  have hparse₂ : Term.parse q.line = .ok q.expression := by decide +kernel
  have hv : ((Evaluator.new o).evaluate 2 first.expression).outcome = .ok (.var "x") := by
    decide +kernel
  obtain ⟨s, s₁, hs, hq, hbefore, hpath, -, heval, -⟩ := exists_second o hparse₁ hparse₂ hv
  have hline : ∀ c ∈ q.line.toList, inLine c = true := by simp [q, inLine]
  obtain ⟨-, d, hscan, htree, ⟨steps, hlog, -⟩, -⟩ :=
    columns_of_warnings hs.reachable hs.linedOnly hq hbefore hline
  let d' : Grammar.Program := appliedToBinding (.var ⟨⟨.var, "x", ⟨1, 1⟩⟩, rfl⟩)
  have hscan' : (scan origin q.line.toList).outcome = .ok d'.tokens := by decide +kernel
  obtain rfl : d = d' := Grammar.Program.unique (Except.ok.inj (hscan.symm.trans hscan'))
  have hbound : s₁.evaluator.environment.contains "N" = true := by
    rw [heval]
    decide +kernel
  have hnames : (d'.assigned.filter fun t => s₁.evaluator.environment.contains t.lexeme)
      = d'.assigned :=
    List.filter_eq_self.2 fun t ht => List.mem_singleton.1 ht ▸ hbound
  have hcolumn : firstColumn q.line "N" = 4 := by decide +kernel
  have hwarnings : (d'.assigned.map fun t => Notice.warning
      (some ⟨typedPath, 2, firstColumn q.line t.lexeme⟩) (overwriteWarning t.lexeme))
      = [.warning (some ⟨typedPath, 2, 4⟩) (overwriteWarning "N")] := by
    rw [← hcolumn]
    rfl
  rw [hnames, hpath, hwarnings, List.append_assoc] at hlog
  exact ⟨s, s₁, first, q, hs, hq, hbefore, rfl, d', hscan', rfl, steps, hlog⟩

/-- The second line refers to `N` before it binds `N` again. The warning points at the reference, three
columns before the name that is bound. -/
theorem columns_of_warnings_reference :
    ∃ (s s₁ : Session) (first q : Queued),
      s.Alone ∧ s.queue.entries = [(1, first)] ++ (2, q) :: [] ∧
      s.runLines 2 [(1, first)] = (.ok (), s₁) ∧ q.line = "N (N <- y)" ∧
      ∃ d : Grammar.Program, (scan origin q.line.toList).outcome = .ok d.tokens ∧
        d.tree = q.expression ∧ d.assigned = [⟨.metavar, "N", ⟨1, 4⟩⟩] ∧
        ∃ steps, (s₁.runLine 2 2 q).2.reporter.log
          = s₁.reporter.log ++ .warning (some ⟨typedPath, 2, 1⟩) (overwriteWarning "N") :: steps := by
  let o : Options := { withPrelude := false }
  let first : Queued := ⟨"N <- x", .bind "N" (.var "x")⟩
  let q : Queued :=
    ⟨"N (N <- y)", .app (.metavar "N" (some ⟨1, 1⟩)) (.group (.bind "N" (.var "y")))⟩
  have hparse₁ : Term.parse first.line = .ok first.expression := by decide +kernel
  have hparse₂ : Term.parse q.line = .ok q.expression := by decide +kernel
  have hv : ((Evaluator.new o).evaluate 2 first.expression).outcome = .ok (.var "x") := by
    decide +kernel
  obtain ⟨s, s₁, hs, hq, hbefore, -, hpath, heval, hlined⟩ := exists_second o hparse₁ hparse₂ hv
  let d : Grammar.Program := appliedToBinding (.metavar ⟨⟨.metavar, "N", ⟨1, 1⟩⟩, rfl⟩)
  have hscan : (scan origin q.line.toList).outcome = .ok d.tokens := by decide +kernel
  have hbound : s₁.evaluator.environment.contains "N" = true := by
    rw [heval]
    decide +kernel
  have hnames : (d.assigned.filter fun t => s₁.evaluator.environment.contains t.lexeme)
      = d.assigned :=
    List.filter_eq_self.2 fun t ht => List.mem_singleton.1 ht ▸ hbound
  obtain ⟨steps, hlog, -⟩ := log_runLine 2 s₁ 2 q
  have hwarnings : s₁.warningsOf 2 q
      = [.warning (some ⟨typedPath, 2, 1⟩) (overwriteWarning "N")] := by
    have hcolumn : firstColumn q.line "N" = 1 := by decide +kernel
    rw [warningsOf_eq hlined (show d.tree = q.expression from rfl), hnames, hpath, ← hcolumn]
    rfl
  refine ⟨s, s₁, first, q, hs, hq, hbefore, rfl, d, hscan, rfl, rfl, steps, ?_⟩
  rw [hlog, begun_eq, hwarnings]
  exact List.append_assoc ..

end Session

end NormalOrder
