import Mathlib.Data.List.Induction
import NormalOrder.Proofs.Reporter

/-!
# Which line a notice is about

A reporter places its warnings and errors in a line that is registered. Which lines these are after a
series of requests, and in which order they were registered, is said by `standing`. The line of a
notice is not the last of them in this order. It is the one whose file comes last in the list of files,
and a file that is named again keeps its place in this list (`Tracks.currentLine_eq_some_iff`). The two
lines are the same exactly if the file of the last line was named for the first time after the files of
the others (`place_of_served`), so they are where one file alone has lines (`LinedOnly.currentLine`). A line
that was registered later is passed over if its file was named before (`place_of_older_line`).
-/

namespace NormalOrder

namespace OrderedMap

variable {α β γ : Type}

/-- The keys stay when a function is applied to all values. -/
theorem keys_mapValues (m : OrderedMap α β) (f : β → γ) : (m.mapValues f).keys = m.keys := by
  rw [keys, mapValues, List.map_map]
  rfl

variable [DecidableEq α]

theorem valueIn_map (f : β → γ) (k : α) (es : List (α × β)) :
    valueIn k (es.map fun e => (e.1, f e.2)) = (valueIn k es).map f := by
  induction es with
  | nil => rfl
  | cons e es ih =>
    rw [List.map_cons, valueIn, valueIn, ih]
    split <;> rfl

/-- A function that is applied to all values is applied to the value of each key. -/
theorem get?_mapValues (m : OrderedMap α β) (f : β → γ) (k : α) :
    (m.mapValues f).get? k = (m.get? k).map f :=
  valueIn_map f k m.entries

/-- A key that is put in is listed last, unless it is listed already. -/
theorem keys_put (m : OrderedMap α β) (k : α) (v : β) :
    (m.put k v).keys = if k ∈ m.keys then m.keys else m.keys ++ [k] := by
  split
  · next h => exact keys_put_of_mem h v
  · next h => exact keys_put_of_not_mem h v

end OrderedMap

namespace Reporter

/-! ## Requests -/

/-- What is asked of a reporter and may change which lines are registered. -/
inductive Request where
  /-- To register a file without a line, or to take its line off. -/
  | file (path : String)
  /-- To register a line of a file. -/
  | line (path text : String) (num : Int)
  /-- To report an error. -/
  | error (d : Diagnostic)

namespace Request

/-- The file that a request names. -/
def path? : Request → Option String
  | file path | line path _ _ => some path
  | error _ => none

/-- The line that a request registers. -/
def line? : Request → Option (String × String × Int)
  | line path text num => some (path, text, num)
  | file _ | error _ => none

/-- Whether a request takes the line of a file off, or puts another in its place. -/
def lifts (path : String) : Request → Bool
  | file path' | line path' _ _ => path' = path
  | error _ => true

/-- A request that names a file lifts the line of this file alone. -/
theorem lifts_of_path {q : Request} {path : String} (h : q.path? = some path) (path' : String) :
    q.lifts path' = decide (path = path') := by
  cases q with
  | file | line =>
    cases h
    rfl
  | error => cases h

end Request

/-- The reporter after a request. -/
def serve (r : Reporter) : Request → Reporter
  | .file path => r.registerFile path
  | .line path text num => r.registerLine path text num
  | .error d => (r.throw d).2

/-- The reporter after requests. -/
def served (r : Reporter) (rs : List Request) : Reporter := rs.foldl serve r

/-- The lines that are registered after requests, those that no later request has lifted, in the order
in which they were registered. -/
def standing : List Request → List (String × String × Int)
  | [] => []
  | q :: rs => (q.line?.toList.filter fun l => !rs.any (Request.lifts l.1)) ++ standing rs

/-- The files that requests name, in the order in which they are named for the first time. -/
def named (rs : List Request) : List String := (rs.filterMap Request.path?).eraseDups

variable {r : Reporter} {rs : List Request} {q : Request} {path text : String} {num : Int}

/-- A further request lifts some of the lines, and may register another. -/
theorem standing_concat (rs : List Request) (q : Request) :
    standing (rs ++ [q]) = (standing rs).filter (fun l => !q.lifts l.1) ++ q.line?.toList := by
  induction rs with
  | nil => simp [standing]
  | cons q' rs ih =>
    rw [List.cons_append, standing, standing, ih, List.filter_append, List.filter_filter,
      List.append_assoc]
    simp [Bool.and_comm]

/-- A further file is listed last, unless it has been named before. -/
theorem named_concat (hq : q.path? = some path) (rs : List Request) :
    named (rs ++ [q]) = if path ∈ named rs then named rs else named rs ++ [path] := by
  have hone : [q].filterMap Request.path? = [path] := by
    rw [List.filterMap_cons, hq]
    rfl
  rw [named, named, List.filterMap_append, hone, List.eraseDups_append]
  generalize rs.filterMap Request.path? = paths
  by_cases hmem : path ∈ paths
  · rw [if_pos (List.mem_eraseDups.2 hmem)]
    simp [List.removeAll, hmem]
  · rw [if_neg fun h => hmem (List.mem_eraseDups.1 h)]
    simp [List.removeAll, hmem, List.eraseDups_cons]

/-- An error names no file. -/
theorem named_concat_error (rs : List Request) (d : Diagnostic) :
    named (rs ++ [.error d]) = named rs := by
  rw [named, List.filterMap_append]
  exact congrArg List.eraseDups (List.append_nil _)

/-! ## The line of a notice -/

/-- The line is the one that is registered of its file. -/
def Lined (r : Reporter) (path text : String) (num : Int) : Prop :=
  r.traceback.get? path = some (some (text, num))

/-- The line that an entry of the list of files has. -/
def entryLine? (e : String × Option (String × Int)) : Option (String × String × Int) :=
  e.2.map fun l => (e.1, l.1, l.2)

/-- The last of the registered lines is the last that the entries have. -/
theorem lastLine_eq (es : List (String × Option (String × Int))) :
    lastLine es = (es.filterMap entryLine?).getLast? := by
  induction es using List.reverseRecOn with
  | nil => rfl
  | append_singleton es e ih =>
    obtain ⟨path, line⟩ := e
    rw [lastLine, List.foldl_append, ← lastLine, ih, List.filterMap_append, List.getLast?_append]
    cases line with
    | none | some => rfl

/-- A notice is placed in the line of the last file that has one. -/
theorem currentLine_eq_some_iff_split :
    r.currentLine = some (path, text, num)
      ↔ ∃ before after, r.traceback.entries = before ++ (path, some (text, num)) :: after ∧
          ∀ e ∈ after, e.2 = none := by
  rw [currentLine, lastLine_eq, List.getLast?_eq_some_iff]
  constructor
  · rintro ⟨lines, h⟩
    obtain ⟨es, es', hes, -, hlast⟩ := List.filterMap_eq_append_iff.1 h
    obtain ⟨lineless, ⟨path', line⟩, after, rfl, -, he, hafter⟩ := List.filterMap_eq_cons_iff.1 hlast
    obtain ⟨l, rfl, hl⟩ := Option.map_eq_some_iff.1 he
    cases hl
    refine ⟨es ++ lineless, after, by rw [hes, List.append_assoc], fun e hmem => ?_⟩
    exact Option.map_eq_none_iff.1 (List.filterMap_eq_nil_iff.1 hafter e hmem)
  · rintro ⟨before, after, hsplit, hafter⟩
    refine ⟨before.filterMap entryLine?, ?_⟩
    have hnone : after.filterMap entryLine? = [] :=
      List.filterMap_eq_nil_iff.2 fun e he => Option.map_eq_none_iff.2 (hafter e he)
    rw [hsplit, List.filterMap_append, List.filterMap_cons, hnone]
    rfl

/-- An element comes before another in a list exactly if it is among those before the other. -/
theorem idxOf_lt_iff_mem {l l' : List String} {a b : String} (hb : b ∉ l) :
    (l ++ b :: l').idxOf a < (l ++ b :: l').idxOf b ↔ a ∈ l := by
  rw [List.idxOf_append, List.idxOf_append, if_neg hb, List.idxOf_cons_self, Nat.zero_add]
  split
  · next ha => exact iff_of_true (List.idxOf_lt_length_iff.2 ha) ha
  · next ha => exact iff_of_false (by omega) ha

/-- The files that are listed before a file are those of the entries before its entry, and those of the
entries after it are others. -/
theorem idxOf_keys_of_split {before after : List (String × Option (String × Int))}
    {line : Option (String × Int)} (h : r.traceback.entries = before ++ (path, line) :: after) :
    (∀ path', r.traceback.keys.idxOf path' < r.traceback.keys.idxOf path
        ↔ path' ∈ before.map Prod.fst) ∧
      ∀ e ∈ after, e.1 ≠ path ∧ e.1 ∉ before.map Prod.fst := by
  have hnodup := r.traceback.nodup
  rw [h, List.map_append, List.map_cons, List.nodup_append, List.nodup_cons] at hnodup
  obtain ⟨-, ⟨hafter, -⟩, hdisjoint⟩ := hnodup
  refine ⟨fun path' => ?_, fun e he => ⟨fun heq => ?_, fun hmem => ?_⟩⟩
  · rw [OrderedMap.keys, h, List.map_append, List.map_cons]
    exact idxOf_lt_iff_mem fun hmem => hdisjoint path hmem path (.head _) rfl
  · have hmem : e.1 ∈ after.map Prod.fst := List.mem_map_of_mem he
    exact hafter (heq ▸ hmem)
  · exact hdisjoint e.1 hmem e.1 (.tail _ (List.mem_map_of_mem he)) rfl

/-- A notice is placed in a line that is registered, and the files of all other such lines are listed
before the file of this one. -/
theorem currentLine_eq_some_iff :
    r.currentLine = some (path, text, num)
      ↔ r.Lined path text num ∧ ∀ path' text' num', r.Lined path' text' num' → path' ≠ path →
          r.traceback.keys.idxOf path' < r.traceback.keys.idxOf path := by
  constructor
  · intro h
    obtain ⟨before, after, hsplit, hafter⟩ := currentLine_eq_some_iff_split.1 h
    obtain ⟨hbefore, -⟩ := idxOf_keys_of_split hsplit
    have hself : (path, some (text, num)) ∈ r.traceback.entries := by
      rw [hsplit]
      exact List.mem_append_right _ (.head _)
    refine ⟨OrderedMap.get?_of_mem_entries hself, fun path' text' num' h' hne => ?_⟩
    have hmem := OrderedMap.mem_entries_of_get? h'
    rw [hsplit, List.mem_append, List.mem_cons] at hmem
    rcases hmem with hmem | heq | hmem
    · exact (hbefore path').2 (List.mem_map_of_mem hmem)
    · exact absurd (congrArg Prod.fst heq) hne
    · cases hafter _ hmem
  · rintro ⟨h, hothers⟩
    obtain ⟨before, after, hsplit⟩ := List.append_of_mem (OrderedMap.mem_entries_of_get? h)
    obtain ⟨hbefore, hlater⟩ := idxOf_keys_of_split hsplit
    refine currentLine_eq_some_iff_split.2 ⟨before, after, hsplit, fun e he => ?_⟩
    obtain ⟨path', line⟩ := e
    -- A line after this one would have to be of a file that is listed before.
    cases line with
    | none => rfl
    | some l =>
      have hmem : (path', some (l.1, l.2)) ∈ r.traceback.entries := by
        rw [hsplit]
        exact List.mem_append_right _ (.tail _ he)
      obtain ⟨hne, hnot⟩ := hlater _ he
      have hlt := hothers path' l.1 l.2 (OrderedMap.get?_of_mem_entries hmem) hne
      exact absurd ((hbefore path').1 hlt) hnot

/-- A notice has no place exactly if no line is registered. -/
theorem currentLine_eq_none_iff :
    r.currentLine = none ↔ ∀ path text num, ¬ r.Lined path text num := by
  rw [currentLine, lastLine_eq, List.getLast?_eq_none_iff, List.filterMap_eq_nil_iff]
  constructor
  · intro h path text num hline
    cases h _ (OrderedMap.mem_entries_of_get? hline)
  · rintro h ⟨path, line⟩ he
    cases line with
    | none => rfl
    | some l => exact absurd (OrderedMap.get?_of_mem_entries he) (h path l.1 l.2)

/-- A line that is registered is the current one, if no other file has a line. -/
theorem LinedOnly.currentLine (h : r.LinedOnly path) (text : String) (num : Int) :
    (r.registerLine path text num).currentLine = some (path, text, num) := by
  have hself : (r.registerLine path text num).Lined path text num := by
    rw [Lined]
    exact (OrderedMap.get?_put ..).trans (if_pos rfl)
  refine currentLine_eq_some_iff.2 ⟨hself, fun path' text' num' hlined hne => ?_⟩
  cases h.registerLine text num _ (OrderedMap.mem_entries_of_get? hlined) hne

/-- The place is in the file and the line that are given; where none are given there is no place. -/
def IsIn (place : Option Place) (line : Option (String × String × Int)) : Prop :=
  place.map (fun p => (p.file, p.line)) = line.map fun l => (l.1, l.2.2)

/-- A warning is placed in the line of the reporter. -/
theorem warn_eq (r : Reporter) (d : Diagnostic) :
    ∃ place, r.warn d = r.notify (.warning place d) ∧ IsIn place r.currentLine := by
  refine ⟨_, rfl, ?_⟩
  cases h : r.currentLine with
  | none | some => rfl

/-- A reporter that is not fatal places an error in its line, and takes the lines of all files off. -/
theorem snd_throw (h : r.fatal = false) (d : Diagnostic) :
    ∃ place, (r.throw d).2 = (r.notify (.error place d)).clearLines ∧ IsIn place r.currentLine := by
  rw [throw, if_neg (by rw [h]; exact Bool.false_ne_true)]
  refine ⟨_, rfl, ?_⟩
  cases r.currentLine with
  | none | some => rfl

/-! ## The list of files -/

/-- The reporter is as requests leave it that find no file registered: it lists the files that they name,
and each has the line of it that is still registered. -/
structure Tracks (rs : List Request) (r : Reporter) : Prop where
  mild : r.fatal = false
  keys : r.traceback.keys = named rs
  lines : ∀ path text num, r.Lined path text num ↔ (path, text, num) ∈ standing rs

/-- A reporter without files is as no request leaves it. -/
theorem tracks_nil (hfiles : r.traceback = .empty) (hmild : r.fatal = false) : Tracks [] r := by
  refine ⟨hmild, ?_, fun path text num => ?_⟩
  · rw [hfiles]
    rfl
  · rw [Lined, hfiles]
    simp [standing, OrderedMap.get?, OrderedMap.empty, OrderedMap.valueIn]

/-- What is registered after one more request. -/
theorem mem_standing_concat {l : String × String × Int} :
    l ∈ standing (rs ++ [q]) ↔ (l ∈ standing rs ∧ q.lifts l.1 = false) ∨ q.line? = some l := by
  rw [standing_concat, List.mem_append, List.mem_filter, Option.mem_toList, Bool.not_eq_true']

/-- A request is tracked that names a file and puts the line under it that it registers, or none. -/
theorem Tracks.put (h : Tracks rs r) {v : Option (String × Int)} (hq : q.path? = some path)
    (hv : q.line? = v.map fun l => (path, l.1, l.2)) :
    Tracks (rs ++ [q]) { r with traceback := r.traceback.put path v } := by
  refine ⟨h.mild, ?_, fun path' text' num' => ?_⟩
  · rw [named_concat hq, ← h.keys]
    exact OrderedMap.keys_put _ _ _
  · rw [mem_standing_concat, ← h.lines, Request.lifts_of_path hq, hv, Lined, Lined,
      OrderedMap.get?_put]
    by_cases heq : path = path'
    · cases v <;> simp [heq, Prod.ext_iff]
    · cases v <;> simp [heq]

/-- An error is tracked. -/
theorem Tracks.error (h : Tracks rs r) (d : Diagnostic) :
    Tracks (rs ++ [.error d]) (r.throw d).2 := by
  obtain ⟨place, hthrow, -⟩ := snd_throw h.mild d
  rw [hthrow]
  refine ⟨h.mild, ?_, fun path' text' num' => ?_⟩
  · rw [named_concat_error, ← h.keys]
    exact OrderedMap.keys_mapValues _ _
  · have hcleared : (r.notify (.error place d)).clearLines.traceback.get? path'
        = (r.traceback.get? path').map fun _ => none := OrderedMap.get?_mapValues _ _ _
    rw [mem_standing_concat, Lined, hcleared]
    simp [Request.lifts, Request.line?]

/-- A request is tracked after those before it. -/
theorem Tracks.serve (h : Tracks rs r) (q : Request) : Tracks (rs ++ [q]) (r.serve q) := by
  cases q with
  | file path => exact h.put rfl rfl
  | line path text num => exact h.put rfl rfl
  | error d => exact h.error d

/-- The reporter tracks any series of requests. -/
theorem tracks_served (hfiles : r.traceback = .empty) (hmild : r.fatal = false) (rs : List Request) :
    Tracks rs (r.served rs) := by
  induction rs using List.reverseRecOn with
  | nil => exact tracks_nil hfiles hmild
  | append_singleton rs q ih =>
    rw [served, List.foldl_append]
    exact ih.serve q

/-- A new reporter that is not fatal, after any series of requests. A warning and an error that it reports
then are placed in one and the same line, or in none. It is the one of the registered lines whose file was
named after the files of all the others, counted by the first time that each was named, and there is none
exactly if no line is registered. So it is the line that was registered last exactly if the file of this one
was named after those of the others. -/
theorem place_of_served (hfiles : r.traceback = .empty) (hmild : r.fatal = false) (rs : List Request) :
    (∀ d, ∃ place, (r.served rs).warn d = (r.served rs).notify (.warning place d) ∧
      IsIn place (r.served rs).currentLine) ∧
    (∀ d, ∃ place, ((r.served rs).throw d).2 = ((r.served rs).notify (.error place d)).clearLines ∧
      IsIn place (r.served rs).currentLine) ∧
    (∀ path text num, (r.served rs).currentLine = some (path, text, num)
      ↔ (path, text, num) ∈ standing rs ∧ ∀ l ∈ standing rs, l.1 ≠ path →
          (named rs).idxOf l.1 < (named rs).idxOf path) ∧
    ((r.served rs).currentLine = none ↔ standing rs = []) ∧
    ((r.served rs).currentLine = (standing rs).getLast?
      ↔ ∀ last ∈ (standing rs).getLast?, ∀ l ∈ standing rs, l.1 ≠ last.1 →
          (named rs).idxOf l.1 < (named rs).idxOf last.1) := by
  have htracks := tracks_served hfiles hmild rs
  have hsome : ∀ path text num, (r.served rs).currentLine = some (path, text, num)
      ↔ (path, text, num) ∈ standing rs ∧ ∀ l ∈ standing rs, l.1 ≠ path →
          (named rs).idxOf l.1 < (named rs).idxOf path := by
    intro path text num
    rw [currentLine_eq_some_iff, htracks.keys, htracks.lines]
    refine and_congr_right fun _ => ⟨fun h l hl => ?_, fun h path' text' num' hl => ?_⟩
    · exact h l.1 l.2.1 l.2.2 ((htracks.lines _ _ _).2 hl)
    · exact h _ ((htracks.lines _ _ _).1 hl)
  have hnone : (r.served rs).currentLine = none ↔ standing rs = [] := by
    rw [currentLine_eq_none_iff, List.eq_nil_iff_forall_not_mem]
    refine ⟨fun h l hl => ?_, fun h path text num hl => ?_⟩
    · exact h l.1 l.2.1 l.2.2 ((htracks.lines _ _ _).2 hl)
    · exact h _ ((htracks.lines _ _ _).1 hl)
  refine ⟨warn_eq _, snd_throw htracks.mild, hsome, hnone, ?_⟩
  cases hlast : (standing rs).getLast? with
  | none => exact iff_of_true (hnone.2 (List.getLast?_eq_none_iff.1 hlast)) (by simp)
  | some last =>
    obtain ⟨path, text, num⟩ := last
    rw [hsome]
    simp [List.mem_of_getLast? hlast]

/-- After the line of the third file was taken off, a notice is placed in the line of the second, which was
registered after that of the first. -/
theorem place_of_served_two :
    ∃ (r : Reporter) (rs : List Request), r = { fatal := false } ∧
      rs = [.line "a" "x" 1, .line "b" "y" 7, .line "c" "z" 2, .file "c"] ∧
      (standing rs).getLast? = some ("b", "y", 7) ∧
      (r.served rs).currentLine = (standing rs).getLast? := by
  let r : Reporter := { fatal := false }
  let rs : List Request := [.line "a" "x" 1, .line "b" "y" 7, .line "c" "z" 2, .file "c"]
  have hlast : (standing rs).getLast? = some ("b", "y", 7) := by decide
  obtain ⟨-, -, -, -, hlatest⟩ := place_of_served (r := r) rfl rfl rs
  refine ⟨r, rs, rfl, rfl, hlast, hlatest.2 fun last hmem l hl hne => ?_⟩
  rw [hlast] at hmem
  cases hmem
  have hothers : ∀ l ∈ standing rs, l.1 ≠ "b" → (named rs).idxOf l.1 < (named rs).idxOf "b" := by
    decide
  exact hothers l hl hne

/-- Of two files the one that was named first has got another line since the second has got its line. An
error is placed in the line of the second, which is the older one. -/
theorem place_of_older_line :
    ∃ (r : Reporter) (rs : List Request), r = { fatal := false } ∧
      rs = [.line "a" "x" 1, .line "b" "y" 1, .line "a" "z" 2] ∧
      standing rs = [("b", "y", 1), ("a", "z", 2)] ∧
      (r.served rs).currentLine = some ("b", "y", 1) ∧
      ∀ d, ((r.served rs).throw d).2.log = [.error (some ⟨"b", 1, d.start + 1⟩) d] :=
  ⟨_, _, rfl, rfl, by decide, by decide, fun _ => rfl⟩

end Reporter

end NormalOrder
