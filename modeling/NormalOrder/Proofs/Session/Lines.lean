import NormalOrder.Proofs.Text.Lines
import NormalOrder.Session.Lines

/-!
# Joining lines

A stripped line is solid and has no comment in it (`Stripped`), and so is a text that stripped lines
are joined to. Stripping such a text once more, together with the line that goes on with it, strips no
more than that line (`stripLine_join`). So it makes no difference whether the lines of a text are
stripped one by one, or the text is stripped again with each of its lines.

`gather` forms the logical lines of a file by recursion on its lines, with the text that waits to be
completed at hand. It is what the lines of a file are joined to (`joinLines_eq_gather`). The logical
lines are numbered in increasing order (`pairwise_gather`), and a text that waits is the beginning of
one of them (`exists_prefix_gather`).
-/

namespace NormalOrder

open Text

variable {p q s line : List Char} {c : Char}

/-! ## Comments -/

/-- Cutting off a text at a comment leaves a character that is no semicolon and what comes before
it, unless the comment begins earlier. -/
theorem upTo_append_cons (hp : ¬ commentMark <:+: p) (hc : c ≠ ';') (q : List Char) :
    upTo commentMark (p ++ c :: q) = p ++ c :: upTo commentMark q := by
  induction p with
  | nil =>
    have hnot : ¬ commentMark <+: c :: q := fun h => hc (List.cons_prefix_cons.1 h).1.symm
    rw [List.nil_append, upTo_cons, if_neg hnot, List.nil_append]
  | cons d p ih =>
    rw [List.infix_cons_iff, not_or] at hp
    have hnot : ¬ commentMark <+: d :: (p ++ c :: q) := by
      intro h
      obtain ⟨rfl, h'⟩ := List.cons_prefix_cons.1 h
      cases p with
      | nil => exact hc (List.cons_prefix_cons.1 h').1.symm
      | cons e p =>
        obtain ⟨rfl, -⟩ := List.cons_prefix_cons.1 h'
        exact hp.1 ⟨p, rfl⟩
    rw [List.cons_append, upTo_cons, if_neg hnot, ih hp.2, List.cons_append]

/-- No blank is a semicolon. -/
theorem ne_of_isBlank (h : isBlank c = true) : c ≠ ';' := by
  rintro rfl
  cases h

/-- Blanks before a text are not cut off. -/
theorem upTo_blanks_append {l : List Char} (hl : Blanks l) (cs : List Char) :
    upTo commentMark (l ++ cs) = l ++ upTo commentMark cs := by
  induction l with
  | nil => rfl
  | cons b l ih =>
    obtain ⟨hb, hl⟩ := List.forall_mem_cons.1 hl
    have hcut := upTo_append_cons (p := []) (fun h => nomatch List.infix_nil.1 h)
      (ne_of_isBlank hb) (l ++ cs)
    rw [List.nil_append, List.nil_append, ih hl] at hcut
    exact hcut

/-- Blanks after a text add blanks, at most, to what it is cut off to. -/
theorem exists_upTo_append_blanks {r : List Char} (hr : Blanks r) (cs : List Char) :
    ∃ r', Blanks r' ∧ upTo commentMark (cs ++ r) = upTo commentMark cs ++ r' := by
  induction cs with
  | nil =>
    have hcut := upTo_blanks_append hr []
    rw [List.append_nil, upTo_nil, List.append_nil] at hcut
    exact ⟨r, hr, by rw [List.nil_append, hcut, upTo_nil, List.nil_append]⟩
  | cons c cs ih =>
    obtain ⟨r', hr', heq⟩ := ih
    rw [List.cons_append, upTo_cons, upTo_cons]
    by_cases h : commentMark <+: c :: cs
    · have h' : commentMark <+: c :: (cs ++ r) := h.trans ⟨r, rfl⟩
      rw [if_pos h, if_pos h']
      exact ⟨[], nofun, rfl⟩
    · have h' : ¬ commentMark <+: c :: (cs ++ r) := by
        intro h'
        obtain ⟨rfl, hsecond⟩ := List.cons_prefix_cons.1 h'
        cases cs with
        | cons e cs =>
          obtain ⟨rfl, -⟩ := List.cons_prefix_cons.1 hsecond
          exact h ⟨cs, rfl⟩
        | nil =>
          cases r with
          | nil => exact absurd (List.prefix_nil.1 hsecond) (List.cons_ne_nil _ _)
          | cons b r =>
            obtain ⟨hb, -⟩ := List.forall_mem_cons.1 hr
            exact ne_of_isBlank hb (List.cons_prefix_cons.1 hsecond).1.symm
      rw [if_neg h, if_neg h', heq]
      exact ⟨r', hr', rfl⟩

/-! ## Stripped lines -/

/-- A line without blanks at its ends and without a comment. -/
structure Stripped (cs : List Char) : Prop where
  solid : Solid cs
  uncommented : ¬ commentMark <:+: cs

/-- A line is stripped when it has been stripped. -/
theorem stripped_stripLine (line : List Char) : Stripped (stripLine line) := by
  refine ⟨solid_trim _, fun h => ?_⟩
  obtain ⟨l, r, -, -, -, heq⟩ := exists_trim (upTo commentMark line)
  refine not_infix_upTo (by decide) line (h.trans ?_)
  exact ⟨l, r, by rw [List.append_assoc]; exact heq.symm⟩

/-- Blanks around a line make no difference to stripping it. -/
theorem stripLine_trim (line : List Char) : stripLine (trim line) = stripLine line := by
  obtain ⟨l, r, hl, hr, -, heq⟩ := exists_trim line
  obtain ⟨r', hr', hcut⟩ := exists_upTo_append_blanks hr (trim line)
  have hline : upTo commentMark line = l ++ (upTo commentMark (trim line) ++ r') := by
    rw [← hcut, ← upTo_blanks_append hl, ← heq]
  rw [stripLine, stripLine, hline, trim_append_blanks hl hr']

/-- What a trimmed line is cut off to is the stripped line, with blanks after it. -/
theorem exists_upTo_trim (line : List Char) :
    ∃ r, Blanks r ∧ upTo commentMark (trim line) = stripLine line ++ r := by
  obtain ⟨l, r, hl, hr, -, heq⟩ := exists_trim (upTo commentMark (trim line))
  rw [← stripLine, stripLine_trim] at heq
  cases l with
  | nil => exact ⟨r, hr, heq⟩
  | cons b l =>
    obtain ⟨rest, htrim, -⟩ := exists_upTo commentMark (trim line)
    have hb : isBlank b = false := by
      refine (solid_trim line).head b ?_
      rw [htrim, heq]
      rfl
    cases hb.symm.trans (hl b (.head _))

/-- A trimmed line begins with the stripped line, if this is not empty. After it comes a blank or a
comment, if anything. -/
theorem exists_trim_append (line : List Char) :
    ∃ rest, trim line = stripLine line ++ rest ∧ ∀ c ∈ rest.head?, isBlank c = true ∨ c = ';' := by
  obtain ⟨r, hr, hcut⟩ := exists_upTo_trim line
  obtain ⟨rest, htrim, hrest⟩ := exists_upTo commentMark (trim line)
  rw [hcut, List.append_assoc] at htrim
  refine ⟨r ++ rest, htrim, fun c hc => ?_⟩
  cases r with
  | cons b r =>
    cases hc
    exact .inl (hr _ (.head _))
  | nil =>
    rcases hrest with rfl | ⟨rest', rfl⟩
    · cases hc
    · cases hc
      exact .inr rfl

/-- A stripped text and a stripped line joined by a blank are stripped. -/
theorem Stripped.join (hp : Stripped p) (hs : Stripped s) (hpne : p ≠ []) (hsne : s ≠ []) :
    Stripped (p ++ ' ' :: s) := by
  refine ⟨⟨fun c hc => ?_, fun c hc => ?_⟩, fun h => ?_⟩
  · cases p with
    | nil => exact absurd rfl hpne
    | cons d p => exact hp.solid.head c hc
  · rw [List.getLast?_append, List.getLast?_cons_of_ne_nil hsne,
      List.getLast?_eq_some_getLast hsne, Option.some_or,
      ← List.getLast?_eq_some_getLast hsne] at hc
    exact hs.solid.last c hc
  · have hcut : upTo commentMark (p ++ ' ' :: s) = p ++ ' ' :: s := by
      rw [upTo_append_cons hp.uncommented (by decide), upTo_eq_self hs.uncommented]
    rw [← hcut] at h
    exact not_infix_upTo (by decide) _ h

/-- Stripping a stripped text together with a line that goes on with it strips the line. -/
theorem stripLine_join (hp : Stripped p) (hpne : p ≠ []) (line : List Char) :
    stripLine (p ++ ' ' :: trim line)
      = if stripLine line = [] then p else p ++ ' ' :: stripLine line := by
  obtain ⟨r, hr, hcut⟩ := exists_upTo_trim line
  rw [stripLine, upTo_append_cons hp.uncommented (by decide), hcut]
  split
  · next hs =>
    have hblanks : Blanks (' ' :: r) := List.forall_mem_cons.2 ⟨rfl, hr⟩
    rw [hs]
    exact trim_append (l := []) nofun hp.solid hblanks
  · next hs =>
    have hjoin := (hp.join (stripped_stripLine line) hpne hs).solid
    have ht := trim_append (l := []) nofun hjoin hr
    rwa [List.nil_append, List.append_assoc] at ht

/-! ## Logical lines -/

/-- What a stripped line of a file makes with the text that waits for it, or by itself. -/
def joined (waiting : Option LogicalLine) (number : Int) (s : List Char) : LogicalLine :=
  match waiting with
  | some w => ⟨w.text ++ ' ' :: s, w.number⟩
  | none => ⟨s, number⟩

/-- The logical lines that the lines of a file from line `number` on make with the text that waits to
be completed. One that is still open at the end is the last. -/
def gather (waiting : Option LogicalLine) (number : Int) : List (List Char) → List LogicalLine
  | [] => waiting.toList
  | line :: rest =>
    if stripLine line = [] then gather waiting (number + 1) rest
    else
      let l := joined waiting number (stripLine line)
      if isOpen l.text then gather (some l) (number + 1) rest
      else l :: gather none (number + 1) rest

variable {waiting : Option LogicalLine} {number : Int} {lines : List (List Char)}

/-- What a line of a file does to the text that waits and to the logical lines before that. -/
theorem prepareFileLine_eq (waiting : Option LogicalLine) (number : Int) (older : List LogicalLine)
    (line : List Char) :
    prepareFileLine line number waiting.isSome (waiting.toList ++ older)
      = if stripLine line = [] then (⟨[], waiting.isSome⟩, waiting.toList ++ older)
        else
          let l := joined waiting number (stripLine line)
          (⟨l.text, isOpen l.text⟩, l :: older) := by
  rw [prepareFileLine]
  by_cases hs : stripLine line = []
  · rw [if_pos (by rw [hs]; rfl), if_pos hs, hs]
  · have hadd : addLine number (stripLine line) waiting.isSome (waiting.toList ++ older)
        = joined waiting number (stripLine line) :: older := by
      cases waiting with
      | some w => rfl
      | none =>
        cases older with
        | nil | cons => rfl
    rw [if_neg (by rwa [List.isEmpty_iff]), if_neg hs, hadd]
    rfl

/-- Joining the lines of a file is gathering them, with the newest logical line waiting if it is to be
continued. -/
theorem joinFrom_eq_gather (waiting : Option LogicalLine) (number : Int)
    (older : List LogicalLine) (lines : List (List Char)) :
    (joinFrom number waiting.isSome (waiting.toList ++ older) lines).2.reverse
      = older.reverse ++ gather waiting number lines := by
  induction lines generalizing waiting number older with
  | nil =>
    cases waiting with
    | none => simp [joinFrom, gather]
    | some w => simp [joinFrom, gather]
  | cons line lines ih =>
    rw [joinFrom, gather, prepareFileLine_eq]
    by_cases hs : stripLine line = []
    · rw [if_pos hs, if_pos hs]
      exact ih waiting (number + 1) older
    · rw [if_neg hs, if_neg hs]
      generalize joined waiting number (stripLine line) = l
      cases hopen : isOpen l.text with
      | true =>
        simp only [hopen, if_true]
        exact ih (some l) (number + 1) older
      | false =>
        have hrest := ih none (number + 1) (l :: older)
        rw [Option.isSome_none, Option.toList_none, List.nil_append, List.reverse_cons,
          List.append_assoc] at hrest
        simp only [hopen, Bool.false_eq_true, if_false]
        exact hrest

/-- The logical lines of a file are gathered from its lines. -/
theorem joinLines_eq_gather (contents : String) :
    joinLines contents = gather none 1 (fileLines contents.toList) :=
  joinFrom_eq_gather none 1 [] _

/-- Logical lines have numbers from that of the text that waits on, or of the first line. -/
theorem le_number_gather {low : Int} (hnumber : low ≤ number)
    (hwaiting : ∀ w ∈ waiting, low ≤ w.number) (lines : List (List Char)) :
    ∀ l ∈ gather waiting number lines, low ≤ l.number := by
  induction lines generalizing waiting number with
  | nil => exact fun l hl => hwaiting l (Option.mem_toList.1 hl)
  | cons line lines ih =>
    have hnext : low ≤ number + 1 := by omega
    rw [gather]
    split
    · exact ih hnext hwaiting
    · have hjoined : low ≤ (joined waiting number (stripLine line)).number := by
        cases waiting with
        | some w => exact hwaiting w rfl
        | none => exact hnumber
      simp only
      split
      · refine ih hnext fun w hw => ?_
        cases hw
        exact hjoined
      · exact List.forall_mem_cons.2 ⟨hjoined, ih hnext nofun⟩

/-- Logical lines are numbered in increasing order. -/
theorem pairwise_gather (hwaiting : ∀ w ∈ waiting, w.number < number)
    (lines : List (List Char)) :
    (gather waiting number lines).Pairwise fun l l' => l.number < l'.number := by
  induction lines generalizing waiting number with
  | nil =>
    cases waiting with
    | none => exact .nil
    | some w => exact List.pairwise_singleton _ w
  | cons line lines ih =>
    have hlater : ∀ w ∈ waiting, w.number < number + 1 := fun w hw => by
      have := hwaiting w hw
      omega
    rw [gather]
    split
    · exact ih hlater
    · have hjoined : (joined waiting number (stripLine line)).number < number + 1 := by
        cases waiting with
        | some w => exact hlater w rfl
        | none => exact Int.lt_succ number
      simp only
      split
      · refine ih fun w hw => ?_
        cases hw
        exact hjoined
      · refine List.pairwise_cons.2 ⟨fun l hl => ?_, ih nofun⟩
        have hnone : ∀ w ∈ (none : Option LogicalLine), number + 1 ≤ w.number := nofun
        have hle := le_number_gather (Int.le_refl _) hnone lines l hl
        omega

/-- A text that waits is the beginning of one of the logical lines. -/
theorem exists_prefix_gather (w : LogicalLine) (number : Int) (lines : List (List Char)) :
    ∃ l ∈ gather (some w) number lines, w.text <+: l.text := by
  induction lines generalizing w number with
  | nil => exact ⟨w, .head _, List.prefix_rfl⟩
  | cons line lines ih =>
    rw [gather]
    split
    · exact ih w (number + 1)
    · have hprefix : w.text <+: (joined (some w) number (stripLine line)).text :=
        List.prefix_append ..
      simp only
      split
      · obtain ⟨l, hl, hlt⟩ := ih (joined (some w) number (stripLine line)) (number + 1)
        exact ⟨l, hl, hprefix.trans hlt⟩
      · exact ⟨_, .head _, hprefix⟩

end NormalOrder
