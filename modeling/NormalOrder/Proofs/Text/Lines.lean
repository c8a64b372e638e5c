import Mathlib.Data.List.TakeWhile
import NormalOrder.Text.Blank
import NormalOrder.Text.Lines
import NormalOrder.Text.Slice

/-!
# Trimming, cutting off and cutting into lines

A text that is trimmed is `Solid`: neither end of it is blank. The text it was trimmed from is the
same with blanks on both sides (`exists_trim`), and this is all that trimming depends on: what is left
of a solid text with blanks on both sides is the solid text (`trim_append`).

What is before the first occurrence of a part in a text (`upTo`) has no occurrence of it, and it is the
whole text if there is none; the part is found there (`exists_find`). A text that was made from lines is cut into the same lines again
(`fileLines_join`). The line that a place in a text lies in is made up of the characters since the last line
feed before the place (`lastLine`) and those up to the next one after it (`getElem?_segments`).
-/

namespace NormalOrder.Text

variable {l r cs part : List Char}

/-! ## Trimming -/

/-- There are only blanks in a text. -/
def Blanks (cs : List Char) : Prop := ∀ c ∈ cs, isBlank c = true

/-- Neither end of a text is blank. -/
structure Solid (cs : List Char) : Prop where
  head : ∀ c ∈ cs.head?, isBlank c = false
  last : ∀ c ∈ cs.getLast?, isBlank c = false

/-- Blanks before a text that does not begin with one are dropped. -/
theorem dropWhile_append_blanks (hl : Blanks l) (hcs : ∀ c ∈ cs.head?, isBlank c = false) :
    (l ++ cs).dropWhile isBlank = cs := by
  rw [List.dropWhile_append_of_pos hl]
  cases cs with
  | nil => rfl
  | cons c cs => exact List.dropWhile_cons_of_neg (by simp [hcs c rfl])

/-- Trimming takes off the blanks on both sides of a solid text, and nothing else. -/
theorem trim_append (hl : Blanks l) (hcs : Solid cs) (hr : Blanks r) :
    trim (l ++ (cs ++ r)) = cs := by
  have hr' : Blanks r.reverse := fun c hc => hr c (List.mem_reverse.1 hc)
  cases cs with
  | nil =>
    have hblanks : Blanks (l ++ ([] ++ r)) := List.forall_mem_append.2 ⟨hl, hr⟩
    rw [trim, trimBy, List.dropWhile_eq_nil_iff.2 hblanks]
    rfl
  | cons c cs =>
    have hhead : ∀ d ∈ (c :: cs ++ r).head?, isBlank d = false := hcs.head
    rw [trim, trimBy, dropWhile_append_blanks hl hhead, List.reverse_append,
      dropWhile_append_blanks hr' (by rw [List.head?_reverse]; exact hcs.last),
      List.reverse_reverse]

/-- A trimmed text is solid, and what it was trimmed from has blanks on both sides of it. -/
theorem exists_trim (cs : List Char) :
    ∃ l r, Blanks l ∧ Blanks r ∧ Solid (trim cs) ∧ cs = l ++ (trim cs ++ r) := by
  have hdrop : ∀ cs : List Char, ∀ c ∈ (cs.dropWhile isBlank).head?, isBlank c = false := by
    intro cs c hc
    have hnot := List.head?_dropWhile_not isBlank cs
    rw [hc] at hnot
    exact hnot
  have htake : ∀ cs : List Char, Blanks (cs.takeWhile isBlank) :=
    fun cs c hc => List.mem_takeWhile_imp hc
  let m := cs.dropWhile isBlank
  let r := (m.reverse.takeWhile isBlank).reverse
  have hr : Blanks r := fun c hc => htake m.reverse c (List.mem_reverse.1 hc)
  have hm : m = trim cs ++ r := by
    rw [trim, trimBy, ← List.reverse_append, List.takeWhile_append_dropWhile,
      List.reverse_reverse]
  refine ⟨cs.takeWhile isBlank, r, htake cs, hr, ⟨?_, ?_⟩, ?_⟩
  · intro c hc
    refine hdrop cs c ?_
    show c ∈ m.head?
    rw [hm, List.head?_append, hc]
    rfl
  · intro c hc
    rw [trim, trimBy, List.getLast?_reverse] at hc
    exact hdrop _ c hc
  · rw [← hm, List.takeWhile_append_dropWhile]

/-- A trimmed text is solid. -/
theorem solid_trim (cs : List Char) : Solid (trim cs) := by
  obtain ⟨l, r, -, -, hsolid, -⟩ := exists_trim cs
  exact hsolid

/-- Blanks on both sides of a text make no difference to trimming. -/
theorem trim_append_blanks (hl : Blanks l) (hr : Blanks r) :
    trim (l ++ (cs ++ r)) = trim cs := by
  obtain ⟨l', r', hl', hr', hsolid, heq⟩ := exists_trim cs
  have hsides : l ++ (cs ++ r) = (l ++ l') ++ (trim cs ++ (r' ++ r)) := by
    have hmid : l ++ (cs ++ r) = l ++ ((l' ++ (trim cs ++ r')) ++ r) :=
      congrArg (fun mid => l ++ (mid ++ r)) heq
    rw [hmid]
    simp only [List.append_assoc]
  rw [hsides]
  exact trim_append (List.forall_mem_append.2 ⟨hl, hl'⟩) hsolid
    (List.forall_mem_append.2 ⟨hr', hr⟩)

/-! ## Cutting off -/

/-- Nothing is before a part in the empty text. -/
theorem upTo_nil (part : List Char) : upTo part [] = [] := by
  rw [upTo]
  split
  · exact List.take_nil
  · rfl

/-- What is before a part in a text with one more character at its beginning. -/
theorem upTo_cons (part : List Char) (c : Char) (cs : List Char) :
    upTo part (c :: cs) = if part <+: c :: cs then [] else c :: upTo part cs := by
  rw [upTo, find]
  by_cases h : part <+: c :: cs
  · rw [if_pos (List.isPrefixOf_iff_prefix.2 h), if_pos h]
    rfl
  · rw [if_neg (fun hp => h (List.isPrefixOf_iff_prefix.1 hp)), if_neg h, upTo]
    cases find part cs with
    | none | some => rfl

/-- A text without an occurrence of the part is not cut off. -/
theorem upTo_eq_self (h : ¬ part <:+: cs) : upTo part cs = cs := by
  induction cs with
  | nil => exact upTo_nil part
  | cons c cs ih =>
    rw [List.infix_cons_iff, not_or] at h
    rw [upTo_cons, if_neg h.1, ih h.2]

/-- A text is cut off at an occurrence of the part, or at its end. -/
theorem exists_upTo (part cs : List Char) :
    ∃ rest, cs = upTo part cs ++ rest ∧ (rest = [] ∨ part <+: rest) := by
  induction cs with
  | nil => exact ⟨[], by rw [upTo_nil]; rfl, .inl rfl⟩
  | cons c cs ih =>
    rw [upTo_cons]
    split
    · next h => exact ⟨c :: cs, rfl, .inr h⟩
    · obtain ⟨rest, heq, hrest⟩ := ih
      exact ⟨rest, by rw [List.cons_append, ← heq], hrest⟩

/-- There is no occurrence of the part before the first one. -/
theorem not_infix_upTo (hpart : part ≠ []) (cs : List Char) : ¬ part <:+: upTo part cs := by
  induction cs with
  | nil =>
    rw [upTo_nil]
    exact fun h => hpart (List.infix_nil.1 h)
  | cons c cs ih =>
    rw [upTo_cons]
    split
    · exact fun h => hpart (List.infix_nil.1 h)
    · next hnot =>
      rw [List.infix_cons_iff, not_or]
      obtain ⟨rest, heq, -⟩ := exists_upTo part cs
      refine ⟨fun h => hnot ?_, ih⟩
      have hle : c :: upTo part cs <+: c :: cs :=
        List.cons_prefix_cons.2 ⟨rfl, rest, heq.symm⟩
      exact h.trans hle

/-- A part is found where it occurs in a text and nowhere before. -/
theorem exists_find (h : part <:+: cs) :
    ∃ before after, cs = before ++ (part ++ after) ∧ find part cs = some before.length ∧
      ∀ left right, cs = left ++ (part ++ right) → before.length ≤ left.length := by
  induction cs with
  | nil =>
    obtain rfl := List.infix_nil.1 h
    exact ⟨[], [], rfl, rfl, fun left right _ => Nat.zero_le _⟩
  | cons c cs ih =>
    rw [find]
    by_cases hprefix : part <+: c :: cs
    · obtain ⟨after, hafter⟩ := hprefix
      rw [if_pos (List.isPrefixOf_iff_prefix.2 ⟨after, hafter⟩)]
      exact ⟨[], after, hafter.symm, rfl, fun left right _ => Nat.zero_le _⟩
    · rw [if_neg fun hp => hprefix (List.isPrefixOf_iff_prefix.1 hp)]
      obtain ⟨before, after, hsplit, hfound, hfirst⟩ :=
        ih ((List.infix_cons_iff.1 h).resolve_left hprefix)
      refine ⟨c :: before, after, by rw [List.cons_append, ← hsplit], by rw [hfound]; rfl, ?_⟩
      intro left right hleft
      cases left with
      | nil => exact absurd ⟨right, hleft.symm⟩ hprefix
      | cons c' left => exact Nat.succ_le_succ (hfirst left right (List.cons.inj hleft).2)

/-! ## Lines of a text -/

/-- A text without carriage returns has nothing to unify. -/
theorem unifyNewlines_eq_self {cs : List Char} (h : '\r' ∉ cs) : unifyNewlines cs = cs := by
  induction cs with
  | nil => rfl
  | cons c cs ih =>
    rw [List.mem_cons, not_or] at h
    rw [unifyNewlines]
    · rw [ih h.2]
    · rintro rest rfl
      exact absurd rfl h.1
    · rintro rfl
      exact absurd rfl h.1

/-- A line feed ends the first part of a text. -/
theorem segments_append {line : List Char} (h : '\n' ∉ line) (rest : List Char) :
    segments (line ++ '\n' :: rest) = line :: segments rest := by
  induction line with
  | nil => rw [List.nil_append, segments, if_pos rfl]
  | cons c line ih =>
    rw [List.mem_cons, not_or] at h
    rw [List.cons_append, segments, if_neg (Ne.symm h.1), ih h.2]

/-- An empty last part is left out. -/
theorem dropLastEmpty_append (parts : List (List Char)) :
    dropLastEmpty (parts ++ [[]]) = parts := by
  induction parts with
  | nil => rfl
  | cons part parts ih =>
    rw [List.cons_append, dropLastEmpty, ih]
    simp

/-- The lines of a text that was made from lines, with a line feed after each, are these lines. -/
theorem fileLines_join {lines : List String}
    (h : ∀ line ∈ lines, '\n' ∉ line.toList ∧ '\r' ∉ line.toList) :
    fileLines (String.join (lines.map (· ++ "\n"))).toList = lines.map String.toList := by
  have hchars : (String.join (lines.map (· ++ "\n"))).toList
      = lines.flatMap fun line => line.toList ++ ['\n'] := by
    simp [String.toList_join, List.flatMap_map]
  have hreturn : '\r' ∉ lines.flatMap fun line => line.toList ++ ['\n'] := by
    intro hmem
    obtain ⟨line, hline, hr⟩ := List.mem_flatMap.1 hmem
    rcases List.mem_append.1 hr with hr | hr
    · exact (h line hline).2 hr
    · cases List.mem_singleton.1 hr
  have hsegments : ∀ ls : List String, (∀ line ∈ ls, '\n' ∉ line.toList) →
      segments (ls.flatMap fun line => line.toList ++ ['\n']) = ls.map String.toList ++ [[]] := by
    intro ls hls
    induction ls with
    | nil => rfl
    | cons line ls ih =>
      obtain ⟨hline, hls⟩ := List.forall_mem_cons.1 hls
      rw [List.flatMap_cons, List.append_assoc, List.singleton_append, segments_append hline,
        ih hls]
      rfl
  rw [hchars, fileLines, unifyNewlines_eq_self hreturn, Text.lines,
    hsegments lines fun line hline => (h line hline).1, dropLastEmpty_append]

/-- The characters of a text since its last line feed. -/
def lastLine (cs : List Char) : List Char := (cs.reverse.takeWhile (· != '\n')).reverse

/-- A line feed begins a new line. -/
theorem lastLine_feed (cs : List Char) : lastLine (cs ++ ['\n']) = [] := by
  simp [lastLine]

/-- Characters without a line feed are added to the line. -/
theorem lastLine_append (cs : List Char) (hr : '\n' ∉ r) : lastLine (cs ++ r) = lastLine cs ++ r := by
  have hall : ∀ c ∈ r.reverse, (c != '\n') = true := by
    intro c hc
    have hne : c ≠ '\n' := by
      rintro rfl
      exact hr (List.mem_reverse.1 hc)
    simpa using hne
  rw [lastLine, List.reverse_append, List.takeWhile_append_of_pos hall, List.reverse_append,
    List.reverse_reverse, lastLine]

/-- A text without a line feed is one line. -/
theorem lastLine_eq_self (h : '\n' ∉ cs) : lastLine cs = cs :=
  lastLine_append [] h

/-- There is no line feed in a line. -/
theorem not_mem_lastLine (cs : List Char) : '\n' ∉ lastLine cs := by
  intro h
  have hfeed := List.mem_takeWhile_imp (List.mem_reverse.1 h)
  cases hfeed

/-- A text ends with its last line. -/
theorem lastLine_suffix (cs : List Char) : lastLine cs <:+ cs := by
  rw [← List.reverse_prefix, lastLine, List.reverse_reverse]
  exact List.takeWhile_prefix _

/-- What comes before a line feed is in no later line. -/
theorem lastLine_append_of_mem (h : '\n' ∈ cs) (l : List Char) :
    lastLine (l ++ cs) = lastLine cs := by
  have hstop : (cs.reverse.takeWhile (· != '\n')).length ≠ cs.reverse.length := by
    intro hlen
    have hall := List.takeWhile_eq_self_iff.1
      ((List.takeWhile_prefix (· != '\n')).eq_of_length hlen)
    simpa using hall '\n' (List.mem_reverse.2 h)
  rw [lastLine, List.reverse_append, List.takeWhile_append, if_neg hstop, lastLine]

/-- The first part of a text is what comes before its first line feed. -/
theorem getElem?_segments_zero (cs : List Char) :
    (segments cs)[0]? = some (cs.takeWhile (· != '\n')) := by
  induction cs with
  | nil => rfl
  | cons c cs ih =>
    by_cases hc : c = '\n'
    · simp [segments, hc]
    · cases hs : segments cs with
      | nil => simp [hs] at ih
      | cons part parts => simp_all [segments]

/-- The part that a place lies in goes from the last line feed before the place to the first one after
it. -/
theorem getElem?_segments (l r : List Char) :
    (segments (l ++ r))[l.count '\n']? = some (lastLine l ++ r.takeWhile (· != '\n')) := by
  induction l with
  | nil => exact getElem?_segments_zero r
  | cons c l ih =>
    by_cases hc : c = '\n'
    · have hlast : lastLine (c :: l) = lastLine l := by
        by_cases hin : '\n' ∈ l
        · exact lastLine_append_of_mem hin [c]
        · rw [lastLine_eq_self hin, hc]
          exact lastLine_append ['\n'] hin
      rw [List.cons_append, segments, if_pos hc, hc, List.count_cons_self, List.getElem?_cons_succ, ih,
        ← hc, hlast]
    · rw [List.cons_append, segments, if_neg hc, List.count_cons_of_ne hc]
      cases hs : segments (l ++ r) with
      | nil => simp [hs] at ih
      | cons part parts =>
        rw [hs] at ih
        -- The character belongs to the first part, so a place in a later one does not see it.
        by_cases hin : '\n' ∈ l
        · obtain ⟨n, hn⟩ := Nat.exists_eq_add_one.2 (List.count_pos_iff.2 hin)
          have hlast : lastLine (c :: l) = lastLine l := lastLine_append_of_mem hin [c]
          rw [hn, List.getElem?_cons_succ] at ih
          rw [hn, List.getElem?_cons_succ, ih, hlast]
        · have hself : '\n' ∉ c :: l := by
            rw [List.mem_cons, not_or]
            exact ⟨Ne.symm hc, hin⟩
          rw [List.count_eq_zero.2 hin, List.getElem?_cons_zero, lastLine_eq_self hin] at ih
          rw [List.count_eq_zero.2 hin, List.getElem?_cons_zero, lastLine_eq_self hself,
            Option.some.inj ih, List.cons_append]

end NormalOrder.Text
