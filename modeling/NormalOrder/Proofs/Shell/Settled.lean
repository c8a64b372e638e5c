import NormalOrder.Proofs.Evaluator.Persistence
import NormalOrder.Proofs.Session.Failures
import NormalOrder.Proofs.Shell.Lines

/-!
# The shell between two lines

Whatever lines are typed, the shell is settled after each (`Settled`): nothing is queued and no result
is left, no line is registered with the reporter, which is not fatal, and the prompt tells whether a
text waits to be completed. A line that asks for it ends the shell (`feed_of_leaves`), and no other line
does, as long as each evaluation comes to an end within its bound (`feedAll_settled`).

A line can fail in the scanner, the parser, the expansion and the reduction. The failure is reported in
every case and none is fatal: a text that makes no term has a diagnostic (`Failure.exists_diagnostic`),
and an evaluation breaks no assumption where names do not run out (`mild_of_evaluate`). One line takes an
idle shell to an idle one (`Idle.feed`); the lines after one another are an induction on them.
-/

namespace NormalOrder

open Text

/-! ## Failures of evaluations -/

/-- A failure that is reported and does not end the work. -/
structure Failure.Mild (f : Failure) : Prop where
  reported : f.Reported
  mild : f.isFatal = false

/-- Where names do not run out and a budget has a number, an evaluation that fails is broken off, or its
failure is mild. -/
theorem Evaluator.mild_of_evaluate {o : Options} (hsub : o.subscripts = true)
    (hbudget : o.budget ≠ .blank) {calls : List (Call Empty)} {bound : Nat} {t : Expr} {e : EvalError}
    (he : (evaluate bound t (after o calls)).outcome = .error e) (line : String) :
    e = .unfinished ∨ ((Failure.ofEvalError e).locate line).Mild := by
  have hsetup := (sameSetup_after o calls).trans (Call.sameSetup (.evaluate bound t) (after o calls))
  rcases evaluate_error (holdsNormal_after o calls) t.lacks_constant he with
    rfl | ⟨n, l, rfl, -⟩ | hrefused | ⟨-, hfresh⟩
  · exact .inl rfl
  · exact .inr ⟨fun _ => ⟨_, .diagnosed _⟩, rfl⟩
  · rw [show (evaluate bound t (after o calls)).state.budget = o.budget from hsetup.budget] at hrefused
    rcases refusal?_eq_some hrefused with ⟨n, -, rfl⟩ | ⟨hblank, -⟩
    · exact .inr ⟨fun _ => ⟨_, .diagnosed _⟩, rfl⟩
    · exact absurd hblank hbudget
  · obtain ⟨hnone, -⟩ := NameSupply.letters_of_fresh hfresh
    have hsome : (evaluate bound t (after o calls)).state.names.subscripts = true :=
      hsetup.subscripts.trans hsub
    cases hnone.symm.trans hsome

/-! ## Words of commands -/

namespace Command

variable {line word : String} {argument : List Char} {c : Command}

/-- What a command is that has a name: no source text, and it ends the shell only under some names. -/
theorem of_named? (h : named? word argument = some c) :
    (∀ l, c ≠ .source l) ∧ ∀ fresh, c = .leave fresh → word ∈ ["EOF", "exit", "quit"] := by
  unfold named? at h
  split at h <;> cases h <;> simp
  split <;> simp

/-- A question mark asks for help. -/
theorem exists_named?_help (rest : List Char) :
    ∃ argument c, named? "help" argument = some c ∧ ofWords ("help ".toList ++ rest) = c :=
  ⟨_, _, rfl, rfl⟩

/-- A line that begins with a word is the command of that name, or source text. -/
theorem ofLine_of_leadingWord (h : leadingWord line ≠ []) :
    ofLine line = (named? (String.ofList (leadingWord line))
      (trim ((trim line.toList).dropWhile isWordChar))).getD
        (.source (String.ofList (trim line.toList))) := by
  rw [leadingWord] at h ⊢
  rw [ofLine]
  split
  · next htrim =>
    rw [htrim] at h
    exact absurd rfl h
  · next htrim =>
    rw [htrim] at h
    exact absurd rfl h
  · rfl

/-- A line that is source text is so as a whole, and one that ends the shell begins with a word for it. -/
theorem ofLine_spec (line : String) :
    (∀ l, ofLine line = .source l → l = String.ofList (trim line.toList)) ∧
      ∀ fresh, ofLine line = .leave fresh →
        String.ofList (leadingWord line) ∈ ["EOF", "exit", "quit"] := by
  rw [ofLine, leadingWord]
  split
  · simp
  · next rest _ =>
    obtain ⟨argument, c, hnamed, hc⟩ := exists_named?_help rest
    obtain ⟨hsource, hleave⟩ := of_named? hnamed
    rw [hc]
    refine ⟨fun l hl => absurd hl (hsource l), fun fresh hfresh => ?_⟩
    exact absurd (hleave fresh hfresh) (by decide)
  · rw [ofWords]
    cases hnamed : named? (String.ofList ((trim line.toList).takeWhile isWordChar))
        (trim ((trim line.toList).dropWhile isWordChar)) with
    | none =>
      simp only [Option.getD_none, Command.source.injEq]
      exact ⟨fun l hl => hl.symm, by simp⟩
    | some c =>
      obtain ⟨hsource, hleave⟩ := of_named? hnamed
      exact ⟨fun l hl => absurd hl (hsource l), hleave⟩

end Command

namespace Shell

open Session

variable {sh sh' : Shell} {waiting : Option LogicalLine} {o : Options} {bound : Nat} {line : String}

/-! ## The states between lines -/

/-- What holds of a shell between two lines. -/
structure Settled (sh : Shell) : Prop where
  queue : sh.session.queue = .empty
  results : sh.session.results = []
  unlined : sh.session.reporter.Unlined
  mild : sh.session.reporter.fatal = false
  prompt : sh.prompt = secondaryPrompt ↔ sh.pending ≠ ""
  opened : sh.pending ≠ "" → sh.pending.toList.count ')' < sh.pending.toList.count '('

/-- The shell is between two lines, its reporter is ready for the next, and its evaluator has only made
calls since it was set up. -/
structure Idle (o : Options) (waiting : Option LogicalLine) (sh : Shell) : Prop where
  ready : Ready waiting sh
  prompt : sh.prompt = if waiting.isSome then secondaryPrompt else primaryPrompt
  unlined : sh.session.reporter.Unlined
  mild : sh.session.reporter.fatal = false
  history : ∃ calls, sh.session.evaluator = .after o calls

/-- A shell that is idle is settled. -/
theorem Idle.settled (h : Idle o waiting sh) : Settled sh := by
  refine ⟨h.ready.queue, h.ready.results, h.unlined, h.mild, ?_, fun hne => ?_⟩
  · rw [h.prompt, h.ready.pending]
    cases waiting with
    | none => exact iff_of_false (by decide) (fun hne => hne rfl)
    | some w =>
      obtain ⟨-, hne, -⟩ := h.ready.stripped w rfl
      exact iff_of_true rfl fun hempty => hne (String.ofList_eq_empty_iff.1 hempty)
  · cases waiting with
    | none => exact absurd h.ready.pending hne
    | some w =>
      obtain ⟨-, -, hopen⟩ := h.ready.stripped w rfl
      rw [h.ready.pending, String.toList_ofList]
      exact of_decide_eq_true hopen

/-- A new shell is idle. -/
theorem idle_of_start (r : Reporter) (hr : r.Unlined) (o : Options) :
    ∃ sh, start r o = .ok sh ∧ Idle o none sh := by
  let session : Session :=
    ⟨typedPath, { r.registerFile typedPath with fatal := false }, .new o, .empty, []⟩
  have hlined : r.LinedOnly typedPath := hr.linedOnly
  exact ⟨{ session }, rfl, ready_none rfl rfl rfl, rfl, hlined.registerFile, rfl,
    ⟨_, Evaluator.new_eq_after o⟩⟩

/-! ## What a line leads to -/

/-- The line asks the shell to end: its first word is one of those that do, or it asks to quit while no
text waits. -/
def Leaves (sh : Shell) (line : String) : Prop :=
  String.ofList (Command.leadingWord line) ∈ ["EOF", "exit", "quit"] ∨
    AsksToQuit sh (String.ofList (trim line.toList))

/-- The text that a line of source text completes, or goes on with. -/
def completed (sh : Shell) (line : String) : List Char :=
  stripLine (continuedBy sh (String.ofList (trim line.toList))).toList

/-- The line is source text, and completes a text whose evaluation does not come to an end in `bound`
steps. -/
def BreaksOff (bound : Nat) (sh : Shell) (line : String) : Prop :=
  (∃ l, Command.ofLine line = .source l) ∧ ∃ t, Term.parse (String.ofList (completed sh line)) = .ok t ∧
    (sh.session.evaluator.evaluate bound t).outcome = .error .unfinished

/-- What a line that is typed into an idle shell leads to. -/
inductive LeadsTo (o : Options) (bound : Nat) (sh : Shell) (line : String) :
    Outcome Shell Bool → Prop where
  | goesOn {waiting : Option LogicalLine} {sh' : Shell} (h : Idle o waiting sh') :
    LeadsTo o bound sh line (.ok false, sh')
  | ends (sh' : Shell) (h : Leaves sh line) : LeadsTo o bound sh line (.ok true, sh')
  | breaksOff (sh' : Shell) (h : BreaksOff bound sh line) :
    LeadsTo o bound sh line (.error .unfinished, sh')

/-! ## Commands that speak -/

/-- A shell is idle after its reporter has said something. -/
theorem Idle.report (h : Idle o waiting sh) {f : Reporter → Reporter}
    (hlines : (f sh.session.reporter).traceback = sh.session.reporter.traceback)
    (hfatal : (f sh.session.reporter).fatal = sh.session.reporter.fatal) :
    Idle o waiting (sh.report f) := by
  refine ⟨⟨h.ready.pending, h.ready.stripped, h.ready.queue, h.ready.results⟩, h.prompt, ?_,
    hfatal.trans h.mild, h.history⟩
  have hunlined := h.unlined
  rw [Reporter.Unlined, ← hlines] at hunlined
  exact hunlined

/-- A shell is idle after it has said something. -/
theorem Idle.say (h : Idle o waiting sh) (s : String) : Idle o waiting (sh.say s) := h.report rfl rfl

/-- A shell is idle after it has listed values. -/
theorem Idle.listValues (h : Idle o waiting sh) (names : List String) :
    Idle o waiting (sh.listValues names) := by
  rw [Shell.listValues]
  generalize (if names.isEmpty then _ else names : List String) = listed
  generalize sh.session.evaluator.environment = env
  induction listed generalizing sh with
  | nil => exact h
  | cons n listed ih => exact ih (h.say _)

/-- A shell is idle after it has turned the report of steps on or off. -/
theorem Idle.toggleTrace (h : Idle o waiting sh) : Idle o waiting sh.toggleTrace :=
  (h.report rfl rfl).say _

/-! ## Failures -/

/-- A shell whose session has failed mildly goes on, with no line registered. -/
theorem guarded_of_mild {f : Failure} (hf : f.Mild) (sh : Shell) {s : Session}
    (hs : s.reporter.fatal = false) :
    ∃ r, sh.guarded (.error f, s) = (.ok false, { sh with session := { s with reporter := r } }) ∧
      r.fatal = false ∧ r.Unlined := by
  obtain ⟨r, hr, hfatal, hunlined⟩ := Reporter.absorb_of_reported_mild hs hf.reported hf.mild
  refine ⟨r, ?_, hfatal, hunlined⟩
  rw [guarded, Session.guarded]
  simp only [hr]

/-- A text that makes no term is a mild failure. -/
theorem mild_ofSourceError {source : String} {e : SourceError}
    (h : (Term.parse source : Except SourceError Expr) = .error e) :
    (Failure.ofSourceError source e).Mild := by
  obtain ⟨hreported, hmild⟩ := Failure.reported_ofSourceError h
  exact ⟨hreported, hmild⟩

/-- A shell is idle after it has shown a syntax tree, or failed to. -/
theorem Idle.tree (h : Idle o waiting sh) (source : String) :
    ∃ sh', sh.guarded (showTree sh.session source) = (.ok false, sh') ∧ Idle o waiting sh' := by
  rw [showTree]
  split
  · exact ⟨_, rfl, h.report rfl rfl⟩
  · next e he =>
    obtain ⟨r, hr, hfatal, hunlined⟩ := guarded_of_mild (mild_ofSourceError he) sh h.mild
    exact ⟨_, hr, ⟨h.ready.pending, h.ready.stripped, h.ready.queue, h.ready.results⟩, h.prompt,
      hunlined, hfatal, h.history⟩

/-! ## Lines of source text -/

/-- A complete line that makes no term is refused, while it is registered. -/
theorem evaluateLine_of_unread {s : Session} {e : SourceError}
    (he : (Term.parse line : Except SourceError Expr) = .error e) (num : Int) :
    evaluateLine bound s line num
      = (.error (.ofSourceError line e), s.report (·.registerLine s.path line num)) := by
  rw [evaluateLine, add, he]

/-- A complete line whose evaluation fails is not queued any more, and leaves no result. -/
theorem evaluateLine_of_error {s : Session} (hqueue : s.queue = .empty) {t : Expr} {e : EvalError}
    (ht : Term.parse line = .ok t) (he : (s.evaluator.evaluate bound t).outcome = .error e)
    (num : Int) :
    ∃ r, evaluateLine bound s line num
        = (.error ((Failure.ofEvalError e).locate line),
            { s with reporter := r, evaluator := (s.evaluator.evaluate bound t).state }) ∧
      r.fatal = s.reporter.fatal := by
  obtain ⟨path, r₀, m, queue, results⟩ := s
  obtain rfl : queue = .empty := hqueue
  let q : Queued := ⟨line, t⟩
  obtain ⟨r, hadd, hr, -⟩ := add_of_parse ht ⟨path, r₀, m, .empty, results⟩ num
  let queued : Session := ⟨path, r, m, OrderedMap.empty.put num q, results⟩
  have hadd' : Session.add ⟨path, r₀, m, .empty, results⟩ line num = (.ok (), queued) := hadd
  obtain ⟨r', hrun, hr'⟩ := runLine_of_error (s := queued) (q := q) he num
  rw [← run_put_empty rfl] at hrun
  have herase : queued.queue.erase num = .empty := OrderedMap.erase_put_empty num q
  refine ⟨r', ?_, hr'.fatal_eq.trans hr.fatal⟩
  rw [evaluateLine, hadd']
  simp only [hrun, herase]
  rfl

/-- An idle shell evaluates a complete text that is read. It goes on, with no line registered, unless the
evaluation is broken off; a value is shown. -/
theorem Idle.guarded_evaluateLine (hsub : o.subscripts = true) (hbudget : o.budget ≠ .blank)
    (h : Idle o waiting sh) {text : String} {t : Expr} (ht : Term.parse text = .ok t) (bound : Nat)
    (num : Int) :
    ∃ out r, guarded { sh with pending := "", prompt := primaryPrompt, lineNumber := num }
        (evaluateLine bound sh.session text num)
          = (out, { sh with
              session := { sh.session with
                reporter := r
                evaluator := (sh.session.evaluator.evaluate bound t).state }
              pending := ""
              prompt := primaryPrompt
              lineNumber := num }) ∧
        ((out = .ok false ∧ r.fatal = false ∧ r.Unlined) ∨
          (out = .error .unfinished ∧
            (sh.session.evaluator.evaluate bound t).outcome = .error .unfinished)) ∧
        ∀ v, (sh.session.evaluator.evaluate bound t).outcome = .ok v →
          r.spoken = sh.session.reporter.spoken ++ [.result v] := by
  obtain ⟨calls, hcalls⟩ := h.history
  cases hout : (sh.session.evaluator.evaluate bound t).outcome with
  | ok v =>
    obtain ⟨r, hr, hspoken, hfatal, hunlined⟩ :=
      evaluateLine_of_ok h.ready.queue h.ready.results ht hout num
    rw [hr]
    refine ⟨.ok false, r, rfl, .inl ⟨rfl, hfatal.trans h.mild, hunlined h.unlined⟩, fun v' hv' => ?_⟩
    cases hv'
    exact hspoken
  | error e =>
    obtain ⟨r, hr, hfatal⟩ := evaluateLine_of_error h.ready.queue ht hout num
    rw [hr]
    rw [hcalls] at hout
    rcases Evaluator.mild_of_evaluate hsub hbudget hout text with rfl | hmild
    · exact ⟨.error .unfinished, r, rfl, .inr ⟨rfl, rfl⟩, by simp⟩
    · obtain ⟨r', hr', hfatal', hunlined⟩ := guarded_of_mild hmild
        { sh with pending := "", prompt := primaryPrompt, lineNumber := num }
        (s := { sh.session with
          reporter := r
          evaluator := (sh.session.evaluator.evaluate bound t).state })
        (hfatal.trans h.mild)
      exact ⟨.ok false, r', hr', .inl ⟨rfl, hfatal', hunlined⟩, by simp⟩

/-- What an idle shell comes to that has evaluated a complete text. -/
theorem leadsTo_of_complete (hsub : o.subscripts = true) (hbudget : o.budget ≠ .blank)
    (h : Idle o waiting sh) (hsource : ∃ l, Command.ofLine line = .source l) (num : Int) :
    LeadsTo o bound sh line
      (guarded { sh with pending := "", prompt := primaryPrompt, lineNumber := num }
        (evaluateLine bound sh.session (String.ofList (completed sh line)) num)) := by
  obtain ⟨calls, hcalls⟩ := h.history
  generalize htext : String.ofList (completed sh line) = text
  cases ht : (Term.parse text : Except SourceError Expr) with
  | error e =>
    rw [evaluateLine_of_unread ht]
    obtain ⟨r, hr, hfatal, hunlined⟩ := guarded_of_mild (mild_ofSourceError ht)
      { sh with pending := "", prompt := primaryPrompt, lineNumber := num }
      (s := sh.session.report (·.registerLine sh.session.path text num)) h.mild
    rw [hr]
    exact .goesOn ⟨ready_none rfl h.ready.queue h.ready.results, rfl, hunlined, hfatal, calls, hcalls⟩
  | ok t =>
    have hnext : (sh.session.evaluator.evaluate bound t).state
        = .after o (calls ++ [.evaluate bound t]) := by
      rw [Evaluator.after_concat, hcalls]
      rfl
    obtain ⟨out, r, hr, hends, -⟩ := h.guarded_evaluateLine hsub hbudget ht bound num
    rw [hr]
    rcases hends with ⟨rfl, hfatal, hunlined⟩ | ⟨rfl, hout⟩
    · exact .goesOn ⟨ready_none rfl h.ready.queue h.ready.results, rfl, hunlined, hfatal, _, hnext⟩
    · exact .breaksOff _ ⟨hsource, t, htext ▸ ht, hout⟩

/-- What a line of source text makes with the text that waits is stripped, if anything is left of it. -/
theorem Idle.stripped_completed (h : Idle o waiting sh) (hne : completed sh line ≠ []) :
    Stripped (completed sh line) := by
  have hstrip := stripLine_pending h.ready 0 line
  rw [completed] at hne ⊢
  rw [hstrip] at hne ⊢
  split at hne
  · cases waiting with
    | none => exact absurd rfl hne
    | some w =>
      rw [if_pos ‹_›]
      exact (h.ready.stripped w rfl).1
  · rw [if_neg ‹_›]
    exact (h.ready.stripped_joined ‹_› 0).1

/-- Where nothing is left of a line and the text that waits, none waits. -/
theorem Idle.pending_eq (h : Idle o waiting sh) (hempty : completed sh line = []) :
    sh.pending = "" := by
  have hstrip := stripLine_pending h.ready 0 line
  rw [completed, hstrip] at hempty
  cases waiting with
  | none => exact h.ready.pending
  | some w =>
    obtain ⟨-, hne, -⟩ := h.ready.stripped w rfl
    split at hempty
    · exact absurd hempty hne
    · exact absurd hempty (h.ready.stripped_joined ‹_› 0).2

/-- What a line of source text leads to. -/
theorem Idle.source (hsub : o.subscripts = true) (hbudget : o.budget ≠ .blank)
    (h : Idle o waiting sh) (hsource : ∃ l, Command.ofLine line = .source l) (bound : Nat) :
    LeadsTo o bound sh line (sh.source bound (String.ofList (trim line.toList))) := by
  by_cases hquit : AsksToQuit sh (String.ofList (trim line.toList))
  · rw [Shell.source, if_pos (by simpa [AsksToQuit] using hquit)]
    exact .ends sh (.inr hquit)
  have htext : stripLine (continuedBy sh (String.ofList (trim line.toList))).toList
      = completed sh line := rfl
  by_cases hne : completed sh line = []
  · rw [source_of_empty hquit (h.pending_eq hne) (htext.trans hne)]
    have hidle : Idle o none
        { sh with pending := "", prompt := primaryPrompt, lineNumber := sh.lineNumber + 1 } :=
      ⟨ready_none rfl h.ready.queue h.ready.results, rfl, h.unlined, h.mild, h.history⟩
    exact .goesOn hidle
  · cases hopen : isOpen (completed sh line) with
    | true =>
      rw [source_of_open hquit htext hopen]
      let kept : LogicalLine := ⟨completed sh line, 0⟩
      have hwaits : ∀ w ∈ some kept, Stripped w.text ∧ w.text ≠ [] ∧ isOpen w.text = true := by
        intro w hw
        cases hw
        exact ⟨h.stripped_completed hne, hne, hopen⟩
      have hidle : Idle o (some kept) { sh with
          pending := String.ofList (completed sh line)
          prompt := secondaryPrompt
          lineNumber := sh.lineNumber + 1 } :=
        ⟨⟨rfl, hwaits, h.ready.queue, h.ready.results⟩, rfl, h.unlined, h.mild, h.history⟩
      exact .goesOn hidle
    | false =>
      rw [source_of_complete hquit htext hne hopen]
      exact leadsTo_of_complete hsub hbudget h hsource _

/-! ## Lines one after another -/

/-- A line that is typed into an idle shell leaves it idle, ends it because it asks for that, or is broken
off. -/
theorem Idle.feed (hsub : o.subscripts = true) (hbudget : o.budget ≠ .blank)
    (h : Idle o waiting sh) (bound : Nat) (line : String) :
    LeadsTo o bound sh line (sh.feed bound line) := by
  obtain ⟨hsource, hleave⟩ := Command.ofLine_spec line
  rw [Shell.feed]
  cases hcommand : Command.ofLine line with
  | nothing => exact .goesOn h
  | env names => exact .goesOn (h.listValues names)
  | tree source =>
    obtain ⟨sh', hsh', hidle⟩ := h.tree source
    rw [obey, hsh']
    exact .goesOn hidle
  | trace => exact .goesOn h.toggleTrace
  | introduce => exact .goesOn (h.say _)
  | help topic => exact .goesOn (h.say _)
  | leave fresh => exact .ends _ (.inl (hleave fresh hcommand))
  | source l =>
    rw [obey, hsource l hcommand]
    exact h.source hsub hbudget ⟨l, hcommand⟩ bound

/-- A line that asks for the end ends the shell. -/
theorem feed_of_leaves (h : Leaves sh line) (bound : Nat) : (sh.feed bound line).1 = .ok true := by
  rw [feed]
  rcases h with hword | hquit
  · have hne : Command.leadingWord line ≠ [] := by
      intro hnil
      rw [hnil] at hword
      exact absurd hword (by decide)
    rw [Command.ofLine_of_leadingWord hne]
    simp only [List.mem_cons, List.not_mem_nil, or_false] at hword
    rcases hword with hword | hword | hword <;> rw [hword] <;> rfl
  · have htrim : trim line.toList = [':', 'q'] := by
      rw [← String.toList_ofList (l := trim line.toList), hquit.1]
      rfl
    rw [Command.ofLine, htrim]
    show (sh.source bound ":q").1 = _
    rw [Shell.source, if_pos (by simpa using hquit.2)]

/-- Types lines into a shell one after another, each with its bound on the steps of an evaluation, until
one of them ends the shell. -/
def feedAll (sh : Shell) : List (Nat × String) → Outcome Shell Bool
  | [] => (.ok false, sh)
  | (bound, line) :: rest =>
    match sh.feed bound line with
    | (.ok false, sh') => sh'.feedAll rest
    | ended => ended

/-- Lines that are typed into an idle shell leave it idle, or they do so up to the first that asks for the
end or is broken off. -/
theorem Idle.feedAll (hsub : o.subscripts = true) (hbudget : o.budget ≠ .blank)
    (h : Idle o waiting sh) (lines : List (Nat × String)) :
    (∃ waiting' sh', sh.feedAll lines = (.ok false, sh') ∧ Idle o waiting' sh') ∨
      ∃ before bound line rest waiting' sh', lines = before ++ (bound, line) :: rest ∧
        sh.feedAll before = (.ok false, sh') ∧ Idle o waiting' sh' ∧
        (((sh.feedAll lines).1 = .ok true ∧ Leaves sh' line) ∨
          ((sh.feedAll lines).1 = .error .unfinished ∧ BreaksOff bound sh' line)) := by
  induction lines generalizing waiting sh with
  | nil => exact .inl ⟨waiting, sh, rfl, h⟩
  | cons first lines ih =>
    obtain ⟨bound, line⟩ := first
    have hstep := h.feed hsub hbudget bound line
    rw [Shell.feedAll]
    generalize hfeed : sh.feed bound line = out at hstep
    cases hstep with
    | goesOn hidle =>
      rcases ih hidle with hgoes | ⟨before, b, l, rest, waiting', sh'', rfl, hbefore, hstops⟩
      · exact .inl hgoes
      · refine .inr ⟨(bound, line) :: before, b, l, rest, waiting', sh'', rfl, ?_, hstops⟩
        rw [Shell.feedAll, hfeed]
        exact hbefore
    | ends sh' hleaves =>
      exact .inr ⟨[], bound, line, lines, waiting, sh, rfl, rfl, h, .inl ⟨rfl, hleaves⟩⟩
    | breaksOff sh' hbreaks =>
      exact .inr ⟨[], bound, line, lines, waiting, sh, rfl, rfl, h, .inr ⟨rfl, hbreaks⟩⟩

/-- A shell that is opened with a new reporter is settled, and stays so whatever lines are typed into it,
if names do not run out and a budget has a number. Only two lines stop it: one that asks for the end, and
one whose evaluation does not come to an end in the steps that it is given. -/
theorem feedAll_settled (hsub : o.subscripts = true) (hbudget : o.budget ≠ .blank) (verbose : Bool)
    (wording : Wording) :
    ∃ sh₀, start { verbose, wording } o = .ok sh₀ ∧ ∀ lines : List (Nat × String),
      (∃ sh, sh₀.feedAll lines = (.ok false, sh) ∧ Settled sh) ∨
        ∃ before bound line rest sh, lines = before ++ (bound, line) :: rest ∧
          sh₀.feedAll before = (.ok false, sh) ∧ Settled sh ∧
          (((sh₀.feedAll lines).1 = .ok true ∧ Leaves sh line) ∨
            ((sh₀.feedAll lines).1 = .error .unfinished ∧ BreaksOff bound sh line)) := by
  obtain ⟨sh₀, hstart, hidle⟩ := idle_of_start { verbose, wording } nofun o
  refine ⟨sh₀, hstart, fun lines => ?_⟩
  rcases hidle.feedAll hsub hbudget lines with
    ⟨waiting, sh, hfeed, hsh⟩ | ⟨before, bound, line, rest, waiting, sh, hlines, hbefore, hsh, hstops⟩
  · exact .inl ⟨sh, hfeed, hsh.settled⟩
  · exact .inr ⟨before, bound, line, rest, sh, hlines, hbefore, hsh.settled, hstops⟩

/-- Lines that cannot be read, a command in between the lines of a text and a text without a value leave
the shell settled, with the last line waiting to be completed. -/
theorem feedAll_settled_failing :
    ∃ (lines : List (Nat × String)) (sh₀ sh : Shell),
      lines = [(0, "#"), (0, "(A"), (0, "tree ("), (0, "?"), (2, "B)"), (2, "(y <-)"), (2, "(y z")] ∧
      start { verbose := true } { withPrelude := false, subscripts := true } = .ok sh₀ ∧
      sh₀.feedAll lines = (.ok false, sh) ∧ sh.pending = "(y z" ∧ Settled sh := by
  let lines : List (Nat × String) :=
    [(0, "#"), (0, "(A"), (0, "tree ("), (0, "?"), (2, "B)"), (2, "(y <-)"), (2, "(y z")]
  have hrun : (start { verbose := true } { withPrelude := false, subscripts := true }).toOption.map
      (fun sh => ((sh.feedAll lines).1.toOption, (sh.feedAll lines).2.pending))
      = some (some false, "(y z") := by
    decide +kernel
  obtain ⟨sh₀, hstart, hlines⟩ :=
    feedAll_settled (o := { withPrelude := false, subscripts := true }) rfl nofun true {}
  rw [hstart] at hrun
  obtain ⟨hgoes, hpending⟩ := Prod.mk.inj (Option.some.inj hrun)
  rcases hlines lines with ⟨sh, hfeed, hsh⟩ | ⟨_, _, _, _, _, _, _, _, ⟨hends, -⟩ | ⟨hends, -⟩⟩
  · rw [hfeed] at hpending
    exact ⟨lines, sh₀, sh, rfl, hstart, hfeed, hpending, hsh⟩
  · rw [hends] at hgoes
    cases hgoes
  · rw [hends] at hgoes
    cases hgoes

end Shell

end NormalOrder
