import NormalOrder.Proofs.Session.File
import NormalOrder.Proofs.Term.Source
import NormalOrder.Shell

/-!
# Typing the lines of a file

The lines of a file that is run without an error can be typed into a shell instead: it takes them all,
shows the same normal forms in the same order, and holds the same values in the end (`takes_of_run`).

The two join lines in different ways. A file keeps the logical line that is to be continued; the shell
keeps its text, and strips the text again with each line that it joins to it. Both have the same text
then (`stripLine_pending`). A line without source text does not reach the shell's text, or adds nothing
to it (`feed_of_nothing`).

No line of such a file is a command of the shell, except for the word `EOF`, which is a name of the
language as well. A command begins with two small letters, with a question mark or with a colon, and
none of these begins a line of a text that is read (`isSource_of_parse`).
-/

namespace NormalOrder

open Text

/-! ## Lines that are no commands -/

namespace Command

variable {line : String}

/-- The word that a line begins with. -/
def leadingWord (line : String) : List Char := (trim line.toList).takeWhile isWordChar

/-- A line that is source text for the shell, and does not ask it to quit. -/
structure IsSource (line : String) : Prop where
  command : ofLine line = .source (String.ofList (trim line.toList))
  goesOn : String.ofList (trim line.toList) ≠ ":q"

/-- The words of commands other than `EOF` begin with two small letters. -/
theorem named?_eq_none {word argument : List Char} (heof : word ≠ "EOF".toList)
    (h : ∀ c d more, word = c :: d :: more → Token.startsVar c = true →
      Token.startsVar d = false) :
    named? (String.ofList word) argument = none := by
  have hnot : ∀ w : String, (∃ c d more, w.toList = c :: d :: more ∧ Token.startsVar c = true ∧
      Token.startsVar d = true) → String.ofList word ≠ w := by
    rintro w ⟨c, d, more, hw, hc, hd⟩ rfl
    rw [String.toList_ofList] at hw
    cases (h c d more hw hc).symm.trans hd
  unfold named?
  split
  · next hw => exact absurd hw (hnot "env" ⟨_, _, _, rfl, rfl, rfl⟩)
  · next hw => exact absurd hw (hnot "tree" ⟨_, _, _, rfl, rfl, rfl⟩)
  · next hw => exact absurd hw (hnot "trace" ⟨_, _, _, rfl, rfl, rfl⟩)
  · next hw => exact absurd hw (hnot "help" ⟨_, _, _, rfl, rfl, rfl⟩)
  · next hw =>
    refine absurd ?_ heof
    rw [← hw, String.toList_ofList]
  · next hw => exact absurd hw (hnot "exit" ⟨_, _, _, rfl, rfl, rfl⟩)
  · next hw => exact absurd hw (hnot "quit" ⟨_, _, _, rfl, rfl, rfl⟩)
  · rfl

/-- A line is source text if its first character and its first word are none of those that the shell
looks for. -/
theorem isSource {c : Char} {cs : List Char} (htrim : trim line.toList = c :: cs) (hhelp : c ≠ '?')
    (hquit : c ≠ ':') (heof : leadingWord line ≠ "EOF".toList)
    (hword : ∀ c d more, leadingWord line = c :: d :: more → Token.startsVar c = true →
      Token.startsVar d = false) : IsSource line := by
  constructor
  · rw [ofLine, htrim]
    split
    · next h => cases h
    · next h =>
      cases h
      exact absurd rfl hhelp
    · rw [leadingWord, htrim] at heof hword
      rw [ofWords, named?_eq_none heof hword]
      rfl
  · rw [htrim]
    intro h
    have hcs := congrArg String.toList h
    rw [String.toList_ofList] at hcs
    obtain ⟨hc, -⟩ := List.cons.inj hcs
    exact hquit hc

/-- A line with nothing but a comment is source text. -/
theorem isSource_comment (hs : stripLine line.toList = []) (htrim : trim line.toList ≠ []) :
    IsSource line := by
  obtain ⟨rest, hrest, hhead⟩ := exists_trim_append line.toList
  rw [hs, List.nil_append] at hrest
  cases rest with
  | nil => exact absurd hrest htrim
  | cons c rest =>
    have hc : c = ';' := by
      rcases hhead c rfl with hblank | hc
      · have hsolid := (solid_trim line.toList).head c (by rw [hrest]; rfl)
        cases hsolid.symm.trans hblank
      · exact hc
    subst hc
    have hword : leadingWord line = [] := by
      rw [leadingWord, hrest]
      rfl
    refine isSource hrest (by decide) (by decide) ?_ ?_
    · rw [hword]
      decide
    · rw [hword]
      exact nofun

/-- No small letter is blank. -/
theorem isBlank_of_startsVar {c : Char} (h : Token.startsVar c = true) : isBlank c = false := by
  obtain ⟨ha, hz⟩ := Bool.and_eq_true_iff.1 h
  have ha' : 97 ≤ c.toNat := of_decide_eq_true ha
  have hz' : c.toNat ≤ 122 := of_decide_eq_true hz
  rw [Bool.eq_false_iff]
  intro hblank
  simp only [isBlank, Bool.or_eq_true, Bool.and_eq_true, decide_eq_true_eq, beq_iff_eq] at hblank
  omega

/-- A line of a text that is read, if a word can begin where it begins, is source text. -/
theorem isSource_of_parse {source : String} {e : Expr} (h : Term.parse source = .ok e)
    (before after : List Char)
    (heq : source.toList = before ++ (stripLine line.toList ++ after))
    (hbefore : Token.WordBegins before) (hs : stripLine line.toList ≠ [])
    (heof : leadingWord line ≠ "EOF".toList) : IsSource line := by
  obtain ⟨rest, hrest, hhead⟩ := exists_trim_append line.toList
  cases hstrip : stripLine line.toList with
  | nil => exact absurd hstrip hs
  | cons c s =>
    rw [hstrip] at heq hrest
    have hmem : c ∈ source.toList := by
      rw [heq]
      simp
    have halpha := Grammar.inAlphabet_of_parse h c hmem
    refine isSource hrest ?_ ?_ heof fun c' d more hword hc => ?_
    · rintro rfl
      cases halpha rfl
    · rintro rfl
      cases halpha rfl
    · have hprefix : c' :: d :: more <+: c :: (s ++ rest) := by
        rw [← hword, leadingWord, hrest]
        exact List.takeWhile_prefix _
      obtain ⟨rfl, hmore⟩ := List.cons_prefix_cons.1 hprefix
      -- The second letter of the word is the second of the stripped line, unless this has only one:
      -- then it comes after the stripped line, where only a blank or a comment can be.
      cases s with
      | nil =>
        cases rest with
        | nil => exact absurd (List.prefix_nil.1 hmore) (List.cons_ne_nil _ _)
        | cons d' rest =>
          obtain ⟨rfl, -⟩ := List.cons_prefix_cons.1 hmore
          rw [Bool.eq_false_iff]
          intro hd
          rcases hhead d rfl with hblank | rfl
          · cases (isBlank_of_startsVar hd).symm.trans hblank
          · cases hd
      | cons d' s =>
        obtain ⟨rfl, -⟩ := List.cons_prefix_cons.1 hmore
        exact Grammar.not_letters_of_parse h heq hbefore hc

end Command

namespace Shell

open Session

variable {sh sh' : Shell} {line : String} {waiting : Option LogicalLine} {bound : Nat} {t v : Expr}

/-! ## Lines of source text -/

/-- The shell is between two lines: nothing is queued and no result is left, and the text that waits to
be completed, if there is one, is that of `waiting`. -/
structure Ready (waiting : Option LogicalLine) (sh : Shell) : Prop where
  pending : sh.pending = String.ofList (waiting.elim [] (·.text))
  stripped : ∀ w ∈ waiting, Stripped w.text ∧ w.text ≠ [] ∧ isOpen w.text = true
  queue : sh.session.queue = .empty
  results : sh.session.results = []

/-- A shell in which no text waits, nothing is queued and no result is left is between two lines. -/
theorem ready_none (hpending : sh.pending = "") (hqueue : sh.session.queue = .empty)
    (hresults : sh.session.results = []) : Ready none sh :=
  ⟨hpending, nofun, hqueue, hresults⟩

/-- A complete line that is read and has a value is evaluated, and its value is shown. No line is
registered after it if none was before. -/
theorem evaluateLine_of_ok {s : Session} (hqueue : s.queue = .empty) (hresults : s.results = [])
    (ht : Term.parse line = .ok t) (hv : (s.evaluator.evaluate bound t).outcome = .ok v)
    (num : Int) :
    ∃ r, evaluateLine bound s line num
        = (.ok (), { s with reporter := r, evaluator := (s.evaluator.evaluate bound t).state }) ∧
      r.spoken = s.reporter.spoken ++ [.result v] ∧ r.fatal = s.reporter.fatal ∧
        (s.reporter.Unlined → r.Unlined) := by
  obtain ⟨path, r₀, m, queue, results⟩ := s
  obtain rfl : queue = .empty := hqueue
  obtain rfl : results = [] := hresults
  let q : Queued := ⟨line, t⟩
  obtain ⟨r, hadd, hr, hlines⟩ := add_of_parse ht ⟨path, r₀, m, .empty, []⟩ num
  let queued : Session := ⟨path, r, m, OrderedMap.empty.put num q, []⟩
  have hadd' : Session.add ⟨path, r₀, m, .empty, []⟩ line num = (.ok (), queued) := hadd
  obtain ⟨r', hrun, hr', hlines'⟩ := runLine_of_ok (s := queued) (q := q) hv num
  rw [← run_put_empty rfl] at hrun
  have herase : queued.queue.erase num = .empty := OrderedMap.erase_put_empty num q
  refine ⟨r'.notify (.result v), ?_, ?_, ?_, fun hunlined => ?_⟩
  · rw [evaluateLine, hadd']
    simp only [hrun, herase]
    rfl
  · rw [Reporter.spoken_notify r' rfl, hr'.spoken_eq]
    exact congrArg (· ++ [Notice.result v]) hr.aside.spoken_eq
  · exact hr'.fatal_eq.trans hr.fatal
  · exact hlines' (hlines hunlined.linedOnly).linedOnly

/-- The text that waits, with a typed line joined to it. -/
def continuedBy (sh : Shell) (line : String) : String :=
  if sh.pending = "" then line else sh.pending ++ " " ++ line

/-- The shell strips what a line makes with the text that waits to what a file joins: the waiting text,
if nothing is left of the line, and the logical line that is made of it with the line otherwise. -/
theorem stripLine_pending (h : Ready waiting sh) (number : Int) (line : String) :
    stripLine (continuedBy sh (String.ofList (trim line.toList))).toList
      = if stripLine line.toList = [] then waiting.elim [] (·.text)
        else (joined waiting number (stripLine line.toList)).text := by
  rw [continuedBy]
  cases waiting with
  | none =>
    have hempty : sh.pending = "" := h.pending
    rw [if_pos hempty, String.toList_ofList, stripLine_trim]
    split
    · next hs => exact hs
    · rfl
  | some w =>
    obtain ⟨hstripped, hne, -⟩ := h.stripped w rfl
    have hpending : sh.pending = String.ofList w.text := h.pending
    have hnonempty : sh.pending ≠ "" := by
      rw [hpending]
      exact fun hempty => hne (String.ofList_eq_empty_iff.1 hempty)
    have hchars : (sh.pending ++ " " ++ String.ofList (trim line.toList)).toList
        = w.text ++ ' ' :: trim line.toList := by
      rw [hpending]
      simp [String.toList_append]
    rw [if_neg hnonempty, hchars]
    exact stripLine_join hstripped hne line.toList

/-- A line asks the shell to quit, unless it is the rest of a text that waits. -/
def AsksToQuit (sh : Shell) (line : String) : Prop := line = ":q" ∧ sh.pending = ""

/-- A line that is source text does not ask the shell to quit. -/
theorem not_asksToQuit (h : Command.IsSource line) :
    ¬ AsksToQuit sh (String.ofList (trim line.toList)) :=
  fun hquit => h.goesOn hquit.1

/-- A line that does not ask the shell to quit is prepared together with the text that waits. -/
theorem source_eq (hquit : ¬ AsksToQuit sh line) :
    sh.source bound line
      = if (prepare (continuedBy sh line).toList (sh.pending ≠ "")).continued then
          (.ok false, { sh with
            pending := String.ofList (prepare (continuedBy sh line).toList (sh.pending ≠ "")).line
            prompt := secondaryPrompt
            lineNumber := sh.lineNumber + 1 })
        else if String.ofList (prepare (continuedBy sh line).toList (sh.pending ≠ "")).line = "" then
          (.ok false,
            { sh with pending := "", prompt := primaryPrompt, lineNumber := sh.lineNumber + 1 })
        else
          guarded
            { sh with pending := "", prompt := primaryPrompt, lineNumber := sh.lineNumber + 1 }
            (evaluateLine bound sh.session
              (String.ofList (prepare (continuedBy sh line).toList (sh.pending ≠ "")).line)
              (sh.lineNumber + 1)) := by
  have hgoesOn : ¬ (line = ":q" && sh.pending = "") = true := by
    simpa [AsksToQuit] using hquit
  rw [source, if_neg hgoesOn]
  rfl

/-- A text that is not empty is prepared by itself. -/
theorem prepare_of_ne_nil {cs text : List Char} (hstrip : stripLine cs = text) (hne : text ≠ [])
    (continued : Bool) : prepare cs continued = ⟨text, isOpen text⟩ := by
  rw [prepare, hstrip, if_neg (by rwa [List.isEmpty_iff])]

/-- A line that leaves the text open is kept with it. -/
theorem source_of_open {text : List Char} (hquit : ¬ AsksToQuit sh line)
    (hstrip : stripLine (continuedBy sh line).toList = text) (hopen : isOpen text = true) :
    sh.source bound line
      = (.ok false, { sh with
          pending := String.ofList text
          prompt := secondaryPrompt
          lineNumber := sh.lineNumber + 1 }) := by
  have hne : text ≠ [] := by
    rintro rfl
    cases hopen
  rw [source_eq hquit, prepare_of_ne_nil hstrip hne, if_pos hopen]

/-- A line that completes the text has it evaluated. -/
theorem source_of_complete {text : List Char} (hquit : ¬ AsksToQuit sh line)
    (hstrip : stripLine (continuedBy sh line).toList = text) (hne : text ≠ [])
    (hopen : isOpen text = false) :
    sh.source bound line
      = guarded
          { sh with pending := "", prompt := primaryPrompt, lineNumber := sh.lineNumber + 1 }
          (evaluateLine bound sh.session (String.ofList text) (sh.lineNumber + 1)) := by
  have hnonempty : String.ofList text ≠ "" := fun h => hne (String.ofList_eq_empty_iff.1 h)
  rw [source_eq hquit, prepare_of_ne_nil hstrip hne, if_neg (by rw [hopen]; exact Bool.false_ne_true),
    if_neg hnonempty]

/-- A line that has no source text is passed over when no text waits. -/
theorem source_of_empty (hquit : ¬ AsksToQuit sh line) (hpending : sh.pending = "")
    (hstrip : stripLine (continuedBy sh line).toList = []) :
    sh.source bound line
      = (.ok false,
          { sh with
            pending := ""
            prompt := primaryPrompt
            lineNumber := sh.lineNumber + 1 }) := by
  have hprepare : prepare (continuedBy sh line).toList (sh.pending ≠ "") = ⟨[], false⟩ := by
    rw [prepare, hstrip, hpending]
    rfl
  rw [source_eq hquit, hprepare]
  rfl

/-! ## Lines one after another -/

/-- A line without source text leaves a shell that is between two lines as it is, apart from its count
of lines. -/
theorem feed_of_nothing (bound : Nat) (h : Ready waiting sh) (hs : stripLine line.toList = []) :
    ∃ sh', sh.feed bound line = (.ok false, sh') ∧ Ready waiting sh' ∧
      sh'.session = sh.session := by
  -- A blank line does not reach the waiting text; a comment does, and is stripped from it.
  by_cases htrim : trim line.toList = []
  · refine ⟨sh, ?_, h, rfl⟩
    rw [feed, Command.ofLine, htrim]
    rfl
  · have hsource := Command.isSource_comment hs htrim
    have hstrip := stripLine_pending h 0 line
    rw [if_pos hs] at hstrip
    rw [feed, hsource.command, obey]
    cases waiting with
    | none =>
      rw [source_of_empty (not_asksToQuit hsource) h.pending hstrip]
      exact ⟨_, rfl, ready_none rfl h.queue h.results, rfl⟩
    | some w =>
      obtain ⟨-, -, hopen⟩ := h.stripped w rfl
      rw [source_of_open (not_asksToQuit hsource) hstrip hopen]
      exact ⟨_, rfl, ⟨rfl, h.stripped, h.queue, h.results⟩, rfl⟩

/-- What a line makes with the text that waits is stripped. -/
theorem Ready.stripped_joined (h : Ready waiting sh) (hs : stripLine line.toList ≠ [])
    (number : Int) :
    Stripped (joined waiting number (stripLine line.toList)).text ∧
      (joined waiting number (stripLine line.toList)).text ≠ [] := by
  cases waiting with
  | none => exact ⟨stripped_stripLine line.toList, hs⟩
  | some w =>
    obtain ⟨hstripped, hne, -⟩ := h.stripped w rfl
    exact ⟨hstripped.join (stripped_stripLine line.toList) hne hs, by simp [joined]⟩

/-- A line of source text that leaves the logical line open is kept with it. -/
theorem feed_of_open (bound : Nat) (h : Ready waiting sh) (hsource : Command.IsSource line)
    (hs : stripLine line.toList ≠ []) {l : LogicalLine} {number : Int}
    (hl : joined waiting number (stripLine line.toList) = l) (hopen : isOpen l.text = true) :
    ∃ sh', sh.feed bound line = (.ok false, sh') ∧ Ready (some l) sh' ∧
      sh'.session = sh.session := by
  have hstrip := stripLine_pending h number line
  obtain ⟨hstripped, hne⟩ := h.stripped_joined hs number
  rw [if_neg hs, hl] at hstrip
  rw [hl] at hstripped hne
  rw [feed, hsource.command, obey, source_of_open (not_asksToQuit hsource) hstrip hopen]
  refine ⟨_, rfl, ⟨rfl, fun w hw => ?_, h.queue, h.results⟩, rfl⟩
  cases hw
  exact ⟨hstripped, hne, hopen⟩

/-- A line of source text that completes the logical line has it evaluated, and its value is shown. -/
theorem feed_of_complete (h : Ready waiting sh) (hsource : Command.IsSource line)
    (hs : stripLine line.toList ≠ []) {l : LogicalLine} {number : Int}
    (hl : joined waiting number (stripLine line.toList) = l) (hopen : isOpen l.text = false)
    (ht : Term.parse (String.ofList l.text) = .ok t)
    (hv : (sh.session.evaluator.evaluate bound t).outcome = .ok v) :
    ∃ sh', sh.feed bound line = (.ok false, sh') ∧ Ready none sh' ∧
      sh'.session.evaluator = (sh.session.evaluator.evaluate bound t).state ∧
      sh'.session.reporter.spoken = sh.session.reporter.spoken ++ [.result v] := by
  have hstrip := stripLine_pending h number line
  obtain ⟨-, hne⟩ := h.stripped_joined hs number
  rw [if_neg hs, hl] at hstrip
  rw [hl] at hne
  obtain ⟨r, hr, hspoken, -⟩ := evaluateLine_of_ok h.queue h.results ht hv (sh.lineNumber + 1)
  rw [feed, hsource.command, obey, source_of_complete (not_asksToQuit hsource) hstrip hne hopen, hr]
  exact ⟨_, rfl, ready_none rfl h.queue h.results, rfl, hspoken⟩

/-- The shell takes lines that are typed one after another, and goes on after each of them. -/
inductive Takes (bound : Nat) : Shell → List String → Shell → Prop where
  | nil (sh : Shell) : Takes bound sh [] sh
  | cons {sh sh' sh'' : Shell} {line : String} {lines : List String}
      (h : sh.feed bound line = (.ok false, sh')) (hlines : Takes bound sh' lines sh'') :
    Takes bound sh (line :: lines) sh''

/-- What a line makes with the text that waits begins one of the logical lines, if anything is left of
the line. -/
theorem exists_prefix_joined (waiting : Option LogicalLine) (number : Int) {line : List Char}
    (hs : stripLine line ≠ []) (lines : List (List Char)) :
    ∃ l ∈ gather waiting number (line :: lines),
      (joined waiting number (stripLine line)).text <+: l.text := by
  rw [gather, if_neg hs]
  simp only
  split
  · exact exists_prefix_gather _ _ _
  · exact ⟨_, .head _, List.prefix_rfl⟩

/-- A line of a file is source text for the shell, if anything is left of it, the logical lines are
read, and it does not begin with the word `EOF`. -/
theorem isSource_of_gather {number : Int} {lines : List (List Char)}
    (hs : stripLine line.toList ≠ []) (heof : Command.leadingWord line ≠ "EOF".toList)
    (hparse : ∀ l ∈ gather waiting number (line.toList :: lines),
      ∃ t : Expr, Term.parse (String.ofList l.text) = .ok t) : Command.IsSource line := by
  obtain ⟨l, hl, after, hafter⟩ := exists_prefix_joined waiting number hs lines
  obtain ⟨t, ht⟩ := hparse l hl
  cases waiting with
  | none =>
    refine Command.isSource_of_parse ht [] after ?_ (.inl rfl) hs heof
    rw [String.toList_ofList, List.nil_append]
    exact hafter.symm
  | some w =>
    refine Command.isSource_of_parse ht (w.text ++ [' ']) after ?_ (.inr ⟨_, rfl⟩) hs heof
    rw [String.toList_ofList, ← hafter]
    simp [joined]

/-- A shell that is between two lines takes the lines that complete the waiting text and make further
logical lines, if these have values; it shows the values in their order. -/
theorem takes_of_answers {lines : List String} {number : Int} {vs : List Expr}
    {m' : Evaluator Empty} (h : Ready waiting sh)
    (heof : ∀ line ∈ lines, Command.leadingWord line ≠ "EOF".toList)
    (hanswers : Answers bound sh.session.evaluator
      (gather waiting number (lines.map String.toList)) vs m') :
    ∃ sh', Takes bound sh lines sh' ∧ Ready none sh' ∧ sh'.session.evaluator = m' ∧
      sh'.session.reporter.spoken = sh.session.reporter.spoken ++ vs.map .result := by
  induction lines generalizing waiting number sh vs with
  | nil =>
    cases waiting with
    | none =>
      cases hanswers
      exact ⟨sh, .nil sh, h, rfl, (List.append_nil _).symm⟩
    | some w =>
      -- An open text is not read, so it cannot be the last logical line of the file.
      obtain ⟨-, -, hopen⟩ := h.stripped w rfl
      obtain ⟨t, ht⟩ := hanswers.parse w (.head _)
      have hcount := Grammar.count_paren_of_parse ht
      rw [String.toList_ofList] at hcount
      rw [isOpen, hcount] at hopen
      exact absurd (of_decide_eq_true hopen) (Nat.lt_irrefl _)
  | cons line lines ih =>
    obtain ⟨hline, hlines⟩ := List.forall_mem_cons.1 heof
    have hparse := hanswers.parse
    rw [List.map_cons] at hanswers hparse
    by_cases hs : stripLine line.toList = []
    · rw [gather, if_pos hs] at hanswers
      obtain ⟨sh₁, hfeed, hready, hsession⟩ := feed_of_nothing bound h hs
      rw [← hsession] at hanswers
      obtain ⟨sh', htakes, hdone, heval, hspoken⟩ := ih hready hlines hanswers
      refine ⟨sh', .cons hfeed htakes, hdone, heval, ?_⟩
      rw [hspoken, hsession]
    · have hsource := isSource_of_gather hs hline hparse
      rw [gather, if_neg hs] at hanswers
      generalize hl : joined waiting number (stripLine line.toList) = l at hanswers
      cases hopen : isOpen l.text with
      | true =>
        simp only [hopen, if_true] at hanswers
        obtain ⟨sh₁, hfeed, hready, hsession⟩ := feed_of_open bound h hsource hs hl hopen
        rw [← hsession] at hanswers
        obtain ⟨sh', htakes, hdone, heval, hspoken⟩ := ih hready hlines hanswers
        refine ⟨sh', .cons hfeed htakes, hdone, heval, ?_⟩
        rw [hspoken, hsession]
      | false =>
        simp only [hopen, Bool.false_eq_true, if_false] at hanswers
        cases hanswers with
        | cons ht hv hrest =>
          obtain ⟨sh₁, hfeed, hready, heval₁, hspoken₁⟩ :=
            feed_of_complete h hsource hs hl hopen ht hv
          rw [← heval₁] at hrest
          obtain ⟨sh', htakes, hdone, heval, hspoken⟩ := ih hready hlines hrest
          refine ⟨sh', .cons hfeed htakes, hdone, heval, ?_⟩
          rw [hspoken, hspoken₁, List.append_assoc]
          rfl

/-- A file whose lines have no line endings in them, and none of which begins with the word `EOF`, is
opened and run without an error. Then the same lines can be typed into a new shell with the same
options: it begins at the primary prompt, takes them all one after another and never stops, the normal
forms of the file in their order are all that it shows beside warnings and steps, and its environment is
that of the file in the end. The bound on the steps of an evaluation may be larger than it was for the
file. -/
theorem takes_of_run {lines : List String}
    (hlines : ∀ line ∈ lines, '\n' ∉ line.toList ∧ '\r' ∉ line.toList)
    (heof : ∀ line ∈ lines, Command.leadingWord line ≠ "EOF".toList) (o : Options) (bound : Nat)
    {read : String → Option String} {path : String} {r : Reporter} {s s' : Session}
    (hread : read path = some (String.join (lines.map (· ++ "\n"))))
    (hstart : Session.start read r path false o = .ok s) (hrun : s.run bound = (.ok (), s'))
    (r' : Reporter) (k : Nat) :
    ∃ sh sh', start r' o = .ok sh ∧ sh.prompt = primaryPrompt ∧ Takes (bound + k) sh lines sh' ∧
      sh'.session.reporter.spoken
        = sh.session.reporter.spoken ++ s'.results.map .result ∧
      sh'.session.evaluator.environment = s'.evaluator.environment := by
  have hanswers := (answers_of_run hread hstart hrun).add k
  rw [fileLines_join hlines] at hanswers
  let session : Session :=
    ⟨typedPath, { r'.registerFile typedPath with fatal := false }, .new o, .empty, []⟩
  let sh : Shell := { session }
  have hready : Ready none sh := ⟨rfl, nofun, rfl, rfl⟩
  obtain ⟨sh', htakes, -, heval, hspoken⟩ := takes_of_answers hready heof hanswers
  exact ⟨sh, sh', rfl, rfl, htakes, hspoken, by rw [heval]⟩

/-- A file that stores the identity under `A`, over three lines with a comment and a blank line between
them, and then applies it to a binding of `B`, runs without an error. The shell takes its lines. -/
theorem takes_of_run_continued :
    ∃ (lines : List String) (s s' : Session) (sh sh' : Shell),
      lines = ["A <- (\\x. ;; open", "", "  ;; a comment", "x)", "A (B <- \\y.y)", "A <- B z"] ∧
      Session.start (fun _ => some (String.join (lines.map (· ++ "\n")))) {} "file" false
        { withPrelude := false } = .ok s ∧
      s.run 3 = (.ok (), s') ∧
      start {} { withPrelude := false } = .ok sh ∧ Takes 3 sh lines sh' ∧
      sh'.session.reporter.spoken
        = [.result (.lam "x" (.var "x")), .result (.lam "y" (.var "y")), .result (.var "z")] ∧
      sh'.session.evaluator.environment = s'.evaluator.environment := by
  let lines : List String :=
    ["A <- (\\x. ;; open", "", "  ;; a comment", "x)", "A (B <- \\y.y)", "A <- B z"]
  let read : String → Option String := fun _ => some (String.join (lines.map (· ++ "\n")))
  let started := Session.start read {} "file" false { withPrelude := false }
  have hread : read "file" = some (String.join (lines.map (· ++ "\n"))) := rfl
  have hlines : ∀ line ∈ lines, '\n' ∉ line.toList ∧ '\r' ∉ line.toList := by decide
  have heof : ∀ line ∈ lines, Command.leadingWord line ≠ "EOF".toList := by decide
  have hresults : started.toOption.map (fun s => ((s.run 3).1.toOption, (s.run 3).2.results))
      = some (some (), [.lam "x" (.var "x"), .lam "y" (.var "y"), .var "z"]) := by
    unfold started read lines
    cbv
  cases hstart : started with
  | error f =>
    rw [hstart] at hresults
    cases hresults
  | ok s =>
    rw [hstart] at hresults
    obtain ⟨hok, hvalues⟩ := Prod.mk.inj (Option.some.inj hresults)
    generalize hrun : s.run 3 = out at hok hvalues
    obtain ⟨outcome, s'⟩ := out
    cases outcome with
    | error f => cases hok
    | ok =>
      obtain ⟨sh, sh', hsh, -, htakes, hspoken, henv⟩ :=
        takes_of_run hlines heof { withPrelude := false } 3 hread hstart hrun {} 0
      refine ⟨lines, s, s', sh, sh', rfl, hstart, hrun, hsh, htakes, ?_, henv⟩
      have hvalues' : s'.results = [.lam "x" (.var "x"), .lam "y" (.var "y"), .var "z"] := hvalues
      rw [hspoken, hvalues']
      cases hsh
      rfl

end Shell

end NormalOrder
