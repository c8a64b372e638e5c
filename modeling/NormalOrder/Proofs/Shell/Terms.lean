import NormalOrder.Proofs.Shell.Settled

/-!
# Terms and commands

The words of the shell and the texts that are read have one word in common. A line that is read is
handed to the session as it stands, and the shell goes on when its evaluation is done, as long as the
first word of the line is not `EOF` (`feed_of_parse`). `EOF` is a metavariable of the language, and a
command all the same: a line that begins with it ends the shell, and nothing of it is evaluated.

That no other command is in the way is a matter of letters: no text that is read has two small letters
side by side (`Grammar.not_letters_of_parse`), and every other command begins with two.
-/

namespace NormalOrder

open Text

namespace Shell

open Session

variable {sh sh₀ : Shell} {o : Options} {waiting : Option LogicalLine} {bound : Nat}
  {line text : String} {t : Expr} {lines : List (Nat × String)} {verbose : Bool} {wording : Wording}

/-- What `out` tells of a line that made `text`, which stands for `t`: the text was handed to the session
under the next number, and queued as it stands; it was evaluated, and a value that it has was shown.
The shell goes on, unless the evaluation is broken off. -/
structure Evaluates (bound : Nat) (sh : Shell) (text : String) (t : Expr) (out : Outcome Shell Bool) :
    Prop where
  handed : out = guarded
    { sh with pending := "", prompt := primaryPrompt, lineNumber := sh.lineNumber + 1 }
    (evaluateLine bound sh.session text (sh.lineNumber + 1))
  queued : ∃ r, sh.session.add text (sh.lineNumber + 1)
    = (.ok (), { sh.session with
        reporter := r
        queue := OrderedMap.empty.put (sh.lineNumber + 1) ⟨text, t⟩ })
  evaluated : out.2.session.evaluator = (sh.session.evaluator.evaluate bound t).state
  shown : ∀ v, (sh.session.evaluator.evaluate bound t).outcome = .ok v →
    out.2.session.reporter.spoken = sh.session.reporter.spoken ++ [.result v]
  goesOn : (sh.session.evaluator.evaluate bound t).outcome ≠ .error .unfinished → out.1 = .ok false

/-- An idle shell evaluates a complete text that is read. -/
theorem Idle.evaluates (hsub : o.subscripts = true) (hbudget : o.budget ≠ .blank)
    (h : Idle o waiting sh) (ht : Term.parse text = .ok t) (bound : Nat) :
    Evaluates bound sh text t (guarded
      { sh with pending := "", prompt := primaryPrompt, lineNumber := sh.lineNumber + 1 }
      (evaluateLine bound sh.session text (sh.lineNumber + 1))) := by
  obtain ⟨radd, hadd, -⟩ := add_of_parse ht sh.session (sh.lineNumber + 1)
  rw [h.ready.queue] at hadd
  obtain ⟨out, r, hr, hends, hspoken⟩ :=
    h.guarded_evaluateLine hsub hbudget ht bound (sh.lineNumber + 1)
  refine ⟨rfl, ⟨radd, hadd⟩, ?_, fun v hv => ?_, fun hdone => ?_⟩
  · rw [hr]
  · rw [hr]
    exact hspoken v hv
  · rw [hr]
    rcases hends with ⟨rfl, -⟩ | ⟨-, hout⟩
    · rfl
    · exact absurd hout hdone

/-- A text that is read is not empty and has all its parentheses closed. -/
theorem complete_of_parse {cs : List Char} (ht : Term.parse (String.ofList cs) = .ok t) :
    cs ≠ [] ∧ isOpen cs = false := by
  constructor
  · rintro rfl
    have hnone : (Term.parse "" : Except SourceError Expr).toOption = none := by
      decide +kernel
    rw [show String.ofList [] = "" from rfl] at ht
    rw [ht] at hnone
    cases hnone
  · have hcount := Grammar.count_paren_of_parse ht
    rw [String.toList_ofList] at hcount
    rw [isOpen, hcount]
    exact decide_eq_false (Nat.lt_irrefl _)

/-- A shell in which no text waits takes a line that is read for source text, unless its first word is
`EOF`. -/
theorem feed_of_word (hpending : sh.pending = "")
    (ht : Term.parse (String.ofList (stripLine line.toList)) = .ok t)
    (hword : Command.leadingWord line ≠ "EOF".toList) (bound : Nat) :
    sh.feed bound line = guarded
      { sh with pending := "", prompt := primaryPrompt, lineNumber := sh.lineNumber + 1 }
      (evaluateLine bound sh.session (String.ofList (stripLine line.toList))
        (sh.lineNumber + 1)) := by
  obtain ⟨hne, hopen⟩ := complete_of_parse ht
  have hsource : Command.IsSource line :=
    Command.isSource_of_parse ht [] [] (by rw [String.toList_ofList]; simp) (.inl rfl) hne hword
  have hstrip : stripLine (continuedBy sh (String.ofList (trim line.toList))).toList
      = stripLine line.toList := by
    rw [continuedBy, if_pos hpending, String.toList_ofList, stripLine_trim]
  rw [feed, hsource.command, obey, source_of_complete (not_asksToQuit hsource) hstrip hne hopen]

/-- A line whose first word is `EOF` ends the shell, and all that is said is an empty line. -/
theorem feed_eof (hword : Command.leadingWord line = "EOF".toList) (bound : Nat) (sh : Shell) :
    sh.feed bound line = (.ok true, sh.say "") := by
  rw [feed, Command.ofLine_of_leadingWord (by rw [hword]; decide), hword]
  rfl

/-- Lines were typed into a new shell, which went on after each of them and has none waiting to be
completed. A line that is read then, once its comment and the blanks around it are gone, is evaluated as
it stands, unless its first word is `EOF`. With that word it ends the shell, and the environment, the
queue and the results are what they were. -/
theorem feed_of_parse (hsub : o.subscripts = true) (hbudget : o.budget ≠ .blank)
    (hstart : start { verbose, wording } o = .ok sh₀) (hlines : sh₀.feedAll lines = (.ok false, sh))
    (hpending : sh.pending = "")
    (ht : Term.parse (String.ofList (stripLine line.toList)) = .ok t) (bound : Nat) :
    (Command.leadingWord line ≠ "EOF".toList →
      Evaluates bound sh (String.ofList (stripLine line.toList)) t (sh.feed bound line)) ∧
    (Command.leadingWord line = "EOF".toList → sh.feed bound line = (.ok true, sh.say "")) := by
  obtain ⟨sh', hstart', hidle⟩ := idle_of_start { verbose, wording } (List.forall_mem_nil _) o
  cases hstart.symm.trans hstart'
  refine ⟨fun hword => ?_, fun hword => feed_eof hword bound sh⟩
  rcases hidle.feedAll hsub hbudget lines with
    ⟨waiting, sh', hfeed, hsh⟩ | ⟨_, _, _, _, _, _, _, _, _, ⟨hends, -⟩ | ⟨hends, -⟩⟩
  · cases hlines.symm.trans hfeed
    rw [feed_of_word hpending ht hword]
    exact hsh.evaluates hsub hbudget ht bound
  · rw [hlines] at hends
    cases hends
  · rw [hlines] at hends
    cases hends

/-- After a name was bound, over two lines with a command between them, a line is evaluated that uses it
and has a word for leaving in its comment. -/
theorem feed_of_parse_bound :
    ∃ (lines : List (Nat × String)) (sh₀ sh : Shell) (t : Expr),
      lines = [(9, "ID <- (\\x. ;; open"), (9, "env"), (9, "x)"), (9, "?")] ∧
      start {} { withPrelude := false, subscripts := true } = .ok sh₀ ∧
      sh₀.feedAll lines = (.ok false, sh) ∧ sh.pending = "" ∧
      Evaluates 9 sh "ID y" t (sh.feed 9 "  ID y ;; exit") := by
  let o : Options := { withPrelude := false, subscripts := true }
  let lines : List (Nat × String) := [(9, "ID <- (\\x. ;; open"), (9, "env"), (9, "x)"), (9, "?")]
  have hrun : (start {} o).toOption.map
      (fun sh => ((sh.feedAll lines).1.toOption, (sh.feedAll lines).2.pending))
      = some (some false, "") := by
    decide +kernel
  obtain ⟨sh₀, hstart, -⟩ := idle_of_start {} (List.forall_mem_nil _) o
  rw [hstart] at hrun
  obtain ⟨hgoes, hpending⟩ := Prod.mk.inj (Option.some.inj hrun)
  generalize hlines : sh₀.feedAll lines = out at hgoes hpending
  obtain ⟨outcome, sh⟩ := out
  cases outcome with
  | error f => cases hgoes
  | ok ends =>
    cases hgoes
    have htext : String.ofList (stripLine "  ID y ;; exit".toList) = "ID y" := by decide +kernel
    let t : Expr := .app (.metavar "ID" (some ⟨1, 1⟩)) (.var "y")
    have ht : Term.parse (String.ofList (stripLine "  ID y ;; exit".toList)) = .ok t := by
      decide +kernel
    have hword : Command.leadingWord "  ID y ;; exit" ≠ "EOF".toList := by decide
    obtain ⟨hterm, -⟩ := feed_of_parse rfl (by simp [o]) hstart hlines hpending ht 9
    exact ⟨lines, sh₀, sh, t, rfl, hstart, hlines, hpending, htext ▸ hterm hword⟩

/-- The word `EOF` is a metavariable, and a binding of it is read and has a value. A new shell does not
evaluate the binding, but ends. -/
theorem feed_of_parse_eof :
    ∃ (sh₀ : Shell) (t v : Expr),
      start {} { withPrelude := false, subscripts := true } = .ok sh₀ ∧ sh₀.pending = "" ∧
      Term.parse (String.ofList (stripLine "EOF <- x".toList)) = .ok t ∧
      (sh₀.session.evaluator.evaluate 9 t).outcome = .ok v ∧
      (sh₀.feed 9 "EOF <- x").1 = .ok true ∧
      (sh₀.feed 9 "EOF <- x").2.session.evaluator.environment.contains "EOF" = false ∧
      (sh₀.session.evaluator.evaluate 9 t).state.environment.contains "EOF" = true := by
  let o : Options := { withPrelude := false, subscripts := true }
  let m : Evaluator Empty := .new o
  let t : Expr := .bind "EOF" (.var "x")
  have ht : Term.parse (String.ofList (stripLine "EOF <- x".toList)) = .ok t := by decide +kernel
  have hv : (m.evaluate 9 t).outcome = .ok (.var "x") := by decide +kernel
  have hbound : (m.evaluate 9 t).state.environment.contains "EOF" = true := by decide +kernel
  have hword : Command.leadingWord "EOF <- x" = "EOF".toList := by decide
  let session : Session :=
    ⟨typedPath, { ({} : Reporter).registerFile typedPath with fatal := false }, m, .empty, []⟩
  refine ⟨{ session }, t, .var "x", rfl, rfl, ht, hv, ?_, ?_, hbound⟩
  · rw [feed_eof hword]
  · rw [feed_eof hword]
    rfl

end Shell

end NormalOrder
