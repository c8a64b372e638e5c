import NormalOrder.Proofs.Session.Lines

/-!
# Groups of lines

The stripped lines of a file that are not blank fall into consecutive groups, and each group is joined to
one logical line (`joinFrom_groups`). A group is closed by the first line with which it has no more opening
than closing parentheses, so all of its beginnings have more (`Group.Closed`). Only the last group may be
left with more at the end of the file (`Group.Unclosed`), and this is what the flag tells that comes with
the logical lines.

The text that waits while lines are joined is that of an unclosed group. A line that is not blank goes into
this group, or begins one (`Group.extended`), and the parentheses of the joined text are those of the lines
of the group (`Group.isOpen_text`). The group so extended is closed or goes on to be unclosed.
-/

namespace NormalOrder

/-- The stripped lines of a file that are not blank, numbered as they are in the file, whose first line has
the number `number`. -/
def strippedLines (number : Int) (lines : List (List Char)) : List LogicalLine :=
  (lines.mapIdx fun i line => ⟨stripLine line, number + i⟩).filter fun l => l.text ≠ []

/-- Lines that have more opening than closing parentheses, taken together. -/
def Opens (ls : List LogicalLine) : Prop :=
  (ls.flatMap (·.text)).count ')' < (ls.flatMap (·.text)).count '('

/-- Consecutive lines of a file, at least one. -/
structure Group where
  first : LogicalLine
  rest : List LogicalLine

namespace Group

/-- The lines of a group. -/
def lines (g : Group) : List LogicalLine := g.first :: g.rest

/-- The texts of the lines of a group, joined by single blanks. -/
def text (g : Group) : List Char := [' '].intercalate (g.lines.map (·.text))

/-- The logical line of a group. It has the number of the first line. -/
def joined (g : Group) : LogicalLine := ⟨g.text, g.first.number⟩

/-- A group that has more opening than closing parentheses, and had with each of its lines. -/
def Unclosed (g : Group) : Prop := ∀ ls, ls <+: g.lines → ls ≠ [] → Opens ls

/-- A group that has no more opening than closing parentheses with its last line, and had with each line
before. -/
structure Closed (g : Group) : Prop where
  opens : ∀ ls, ls <+: g.lines → ls ≠ [] → ls ≠ g.lines → Opens ls
  closes : ¬ Opens g.lines

/-- The group that a line makes with the group that waits for it, or by itself. -/
def extended (waiting : Option Group) (l : LogicalLine) : Group :=
  match waiting with
  | some g => ⟨g.first, g.rest ++ [l]⟩
  | none => ⟨l, []⟩

variable {g : Group} {waiting : Option Group} {l : LogicalLine} {c : Char}

/-- A group that is extended by a line ends with the line. -/
theorem lines_extended (waiting : Option Group) (l : LogicalLine) :
    (extended waiting l).lines = waiting.toList.flatMap lines ++ [l] := by
  cases waiting with
  | none => rfl
  | some g => simp [extended, lines]

/-- A text that is joined to others comes after them and a blank. -/
theorem intercalate_concat {texts : List (List Char)} (h : texts ≠ []) (s : List Char) :
    [' '].intercalate (texts ++ [s]) = [' '].intercalate texts ++ ' ' :: s := by
  induction texts with
  | nil => exact absurd rfl h
  | cons t texts ih =>
    cases texts with
    | nil => simp [List.intercalate_cons_cons]
    | cons t' texts =>
      have hrest := ih (List.cons_ne_nil _ _)
      simp only [List.cons_append, List.intercalate_cons_cons] at hrest ⊢
      rw [hrest]
      simp only [List.append_assoc]

/-- The text of a group that is extended by a line is that of the group and the line, joined by a blank. -/
theorem joined_extended (waiting : Option Group) (number : Int) (s : List Char) :
    (extended waiting ⟨s, number⟩).joined = NormalOrder.joined (waiting.map joined) number s := by
  cases waiting with
  | none => simp [extended, joined, text, lines, NormalOrder.joined]
  | some g =>
    have htexts : (extended (some g) ⟨s, number⟩).lines.map (·.text)
        = g.lines.map (·.text) ++ [s] := by
      simp [extended, lines]
    have htext : (extended (some g) ⟨s, number⟩).text = g.text ++ ' ' :: s := by
      rw [text, htexts, intercalate_concat (by simp [lines])]
      rfl
    rw [joined, htext]
    rfl

/-- A joined text has the characters of the texts it was joined from, blanks apart. -/
theorem count_intercalate (hc : c ≠ ' ') (texts : List (List Char)) :
    ([' '].intercalate texts).count c = texts.flatten.count c := by
  induction texts with
  | nil => rfl
  | cons t texts ih =>
    cases texts with
    | nil => simp
    | cons t' texts =>
      have hblank : [' '].count c = 0 := List.count_eq_zero.2 (by simpa using hc)
      rw [List.intercalate_cons_cons, List.count_append, List.count_append, ih, hblank, Nat.add_zero,
        List.flatten_cons (l := t), List.count_append]

/-- The parentheses of the text of a group are those of its lines. -/
theorem isOpen_text (g : Group) : isOpen g.text = true ↔ Opens g.lines := by
  rw [isOpen, Opens, text, count_intercalate (by decide), count_intercalate (by decide),
    decide_eq_true_iff, List.flatMap]

/-- A group that is extended had more opening than closing parentheses with each of the lines before. -/
theorem opens_of_prefix_extended (hw : ∀ g ∈ waiting, g.Unclosed) {ls : List LogicalLine}
    (hls : ls <+: (extended waiting l).lines) (hne : ls ≠ [])
    (hproper : ls ≠ (extended waiting l).lines) : Opens ls := by
  rw [lines_extended] at hls hproper
  rcases List.prefix_concat_iff.1 hls with heq | hprefix
  · exact absurd heq hproper
  · cases waiting with
    | none => exact absurd (List.prefix_nil.1 hprefix) hne
    | some g =>
      rw [Option.toList_some, List.flatMap_singleton] at hprefix
      exact hw g rfl ls hprefix hne

/-- A group that is extended is closed, if it has no more opening than closing parentheses. -/
theorem closed_extended (hw : ∀ g ∈ waiting, g.Unclosed) (h : ¬ Opens (extended waiting l).lines) :
    (extended waiting l).Closed :=
  ⟨fun _ hls hne hproper => opens_of_prefix_extended hw hls hne hproper, h⟩

/-- A group that is extended is unclosed, if it has more opening than closing parentheses. -/
theorem unclosed_extended (hw : ∀ g ∈ waiting, g.Unclosed) (h : Opens (extended waiting l).lines) :
    (extended waiting l).Unclosed := by
  intro ls hls hne
  by_cases heq : ls = (extended waiting l).lines
  · rw [heq]
    exact h
  · exact opens_of_prefix_extended hw hls hne heq

end Group

/-! ## Joining the lines of a file -/

/-- The first line of a file is one of the stripped lines if it is not blank. -/
theorem strippedLines_cons (number : Int) (line : List Char) (lines : List (List Char)) :
    strippedLines number (line :: lines)
      = if stripLine line = [] then strippedLines (number + 1) lines
        else ⟨stripLine line, number⟩ :: strippedLines (number + 1) lines := by
  have hrest : (lines.mapIdx fun i line => (⟨stripLine line, number + (i + 1 : Nat)⟩ : LogicalLine))
      = lines.mapIdx fun i line => ⟨stripLine line, number + 1 + i⟩ := by
    congr 1
    funext i line
    have hnumber : number + (i + 1 : Nat) = number + 1 + i := by omega
    rw [hnumber]
  rw [strippedLines, strippedLines, List.mapIdx_cons, hrest, List.filter_cons]
  by_cases hs : stripLine line = []
  · rw [if_neg (by simpa using hs), if_pos hs]
  · rw [if_pos (by simpa using hs), if_neg hs]
    simp

/-- The lines of a file complete the group that waits and make others. The joined lines that come of them
are those of the closed groups, and that of the group that waits at the end, if one does. -/
theorem exists_groups {waiting : Option Group} (hw : ∀ g ∈ waiting, g.Unclosed) (number : Int)
    (older : List LogicalLine) (lines : List (List Char)) :
    ∃ (groups : List Group) (waiting' : Option Group),
      (∀ g ∈ groups, g.Closed) ∧ (∀ g ∈ waiting', g.Unclosed) ∧
      (groups ++ waiting'.toList).flatMap Group.lines
        = waiting.toList.flatMap Group.lines ++ strippedLines number lines ∧
      joinFrom number waiting.isSome ((waiting.map Group.joined).toList ++ older) lines
        = (waiting'.isSome,
            ((groups ++ waiting'.toList).map Group.joined).reverse ++ older) := by
  induction lines generalizing waiting number older with
  | nil =>
    refine ⟨[], waiting, List.forall_mem_nil _, hw, (List.append_nil _).symm, ?_⟩
    cases waiting with
    | none | some => rfl
  | cons line lines ih =>
    have hsome : waiting.isSome = (waiting.map Group.joined).isSome := Option.isSome_map.symm
    rw [joinFrom, hsome, prepareFileLine_eq, strippedLines_cons]
    by_cases hs : stripLine line = []
    · rw [if_pos hs, if_pos hs, ← hsome]
      exact ih hw (number + 1) older
    · rw [if_neg hs, if_neg hs, ← Group.joined_extended]
      -- The parentheses are counted in the text of the group, with all the lines that wait in it.
      have hlines := Group.lines_extended waiting ⟨stripLine line, number⟩
      generalize hg : Group.extended waiting ⟨stripLine line, number⟩ = g at hlines
      by_cases hopen : Opens g.lines
      · have hunclosed : ∀ g' ∈ some g, g'.Unclosed := by
          rintro g' ⟨⟩
          exact hg ▸ Group.unclosed_extended hw (hg ▸ hopen)
        obtain ⟨groups, waiting', hclosed, hwaiting', hpartition, hjoin⟩ :=
          ih hunclosed (number + 1) older
        refine ⟨groups, waiting', hclosed, hwaiting', ?_, ?_⟩
        · rw [hpartition, Option.toList_some, List.flatMap_singleton, hlines, List.append_assoc]
          rfl
        · simp only [Group.joined, (Group.isOpen_text g).2 hopen]
          exact hjoin
      · have hclosed : g.Closed := hg ▸ Group.closed_extended hw (hg ▸ hopen)
        have hnone : ∀ g' ∈ (none : Option Group), g'.Unclosed := by simp
        obtain ⟨groups, waiting', hgroups, hwaiting', hpartition, hjoin⟩ :=
          ih hnone (number + 1) (g.joined :: older)
        refine ⟨g :: groups, waiting', List.forall_mem_cons.2 ⟨hclosed, hgroups⟩, hwaiting', ?_, ?_⟩
        · rw [List.cons_append, List.flatMap_cons, hpartition, hlines, Option.toList_none,
            List.flatMap_nil, List.nil_append, List.append_assoc]
          rfl
        · have hends : isOpen g.text = false :=
            Bool.eq_false_iff.2 fun h => hopen ((Group.isOpen_text g).1 h)
          simp only [Group.joined, hends]
          rw [List.cons_append, List.map_cons, List.reverse_cons, List.append_assoc]
          exact hjoin

/-- The stripped lines of a file that are not blank are partitioned into consecutive groups, all of them
closed but one that may wait at the end. The lines of a file are joined to the joined lines of these
groups, and are to be continued if one waits. No two of the joined lines have one number: they are numbered
in increasing order. -/
theorem joinFrom_groups (lines : List (List Char)) :
    ∃ (groups : List Group) (waiting : Option Group),
      (∀ g ∈ groups, g.Closed) ∧ (∀ g ∈ waiting, g.Unclosed) ∧
      (groups ++ waiting.toList).flatMap Group.lines = strippedLines 1 lines ∧
      joinFrom 1 false [] lines
        = (waiting.isSome, ((groups ++ waiting.toList).map Group.joined).reverse) ∧
      ((groups ++ waiting.toList).map Group.joined).Pairwise (fun l l' => l.number < l'.number) := by
  have hnone : ∀ g ∈ (none : Option Group), g.Unclosed := by simp
  obtain ⟨groups, waiting, hclosed, hunclosed, hpartition, hjoin⟩ := exists_groups hnone 1 [] lines
  rw [List.append_nil ((groups ++ waiting.toList).map Group.joined).reverse] at hjoin
  refine ⟨groups, waiting, hclosed, hunclosed, hpartition, hjoin, ?_⟩
  have hgather : (groups ++ waiting.toList).map Group.joined = gather none 1 lines := by
    have heq := joinFrom_eq_gather none 1 [] lines
    rw [List.reverse_nil, List.nil_append] at heq
    rw [← heq, ← List.reverse_reverse ((groups ++ waiting.toList).map Group.joined)]
    exact (congrArg (fun r => r.2.reverse) hjoin).symm
  have hfirst : ∀ w ∈ (none : Option LogicalLine), w.number < 1 := by simp
  rw [hgather]
  exact pairwise_gather hfirst lines

example : joinFrom 1 false [] ["(a".toList, ";; b".toList, "c) ".toList, "(d".toList]
    = (true, [⟨"(d".toList, 4⟩, ⟨"(a c)".toList, 1⟩]) := by
  rfl

end NormalOrder
