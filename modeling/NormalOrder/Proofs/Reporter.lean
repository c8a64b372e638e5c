import NormalOrder.Proofs.Diagnostic.Template
import NormalOrder.Proofs.OrderedMap
import NormalOrder.Reporter

/-!
# What a reporter says

What a reporter says is added to its log, and nothing that it says or registers makes it more or less
strict (`Says`). Warnings and steps of evaluations are said aside (`SaysAside`): they are left out of
what is `spoken`.

A failure that is put into words (`Failure.WordedAs`) is reported once, in these words. What comes of
it then is an exit if the reporter is fatal or the failure is, and nothing otherwise
(`absorb_of_worded`). Where nothing comes of it the lines that were registered are forgotten
(`unlined_absorb`).
-/

namespace NormalOrder

/-- Whether a notice is a warning or a step of an evaluation. -/
def Notice.isAside : Notice → Bool
  | .warning _ _ | .step _ _ => true
  | .error _ _ | .result _ | .say _ => false

/-- What is said of a defect. It is read as a template before. -/
def Defect.words (d : Defect) : String := "unknown error: '" ++ d.kind ++ ": " ++ d.text ++ "'"

namespace Failure

/-- A failure is put into words as a diagnostic. A request to exit is not, nor a bound that was too
small, nor a defect whose words are no template that can be filled. -/
inductive WordedAs (w : Wording) : Failure → Diagnostic → Prop where
  | diagnosed (d : Diagnostic) : WordedAs w (.diagnosed d) d
  | interrupted : WordedAs w .interrupted (.plain "keyboard interrupt" false false)
  | tooDeep :
    WordedAs w .tooDeep
      (.plain "beta normal form might exist, but maximum recursion depth exceeded" true false)
  | defect {d : Defect} {diagnostic : Diagnostic} (h : Reporter.unknown w d = .ok diagnostic) :
    WordedAs w (.defect d) diagnostic

/-- A failure that is put into words, however templates are filled. -/
def Reported (f : Failure) : Prop := ∀ w, ∃ d, f.WordedAs w d

/-- Whether a failure ends the work under every reporter: a broken assumption of the evaluator, or a
failure without an explanation. -/
def isFatal : Failure → Bool
  | diagnosed d => d.cause = .violation
  | defect _ => true
  | interrupted | tooDeep | exit _ | unfinished => false

end Failure

namespace Reporter

variable {r r' r'' : Reporter} {ns ns' : List Notice} {f : Failure}

/-! ## Defects in words -/

/-- The words of a defect are read as a template with the empty snippet. What they make is the
interpreter's own fault. -/
theorem unknown_eq (w : Wording) (d : Defect) :
    unknown w d
      = (Template.fill w d.words [""]).map fun message =>
          .about .general message "" 0 (-1) true true := by
  show Diagnostic.ofTemplate .general d.words [""] 0 (-1) true true w = _
  unfold Diagnostic.ofTemplate
  cases Template.fill w d.words [""] with
  | error | ok => rfl

/-- `r'` has said what `r` has said, and then `ns`. Both are fatal or none is, and they fill templates
alike. -/
structure Says (ns : List Notice) (r r' : Reporter) : Prop where
  fatal : r'.fatal = r.fatal
  wording : r'.wording = r.wording
  log : r'.log = r.log ++ ns

/-- Nothing is said when nothing is done. -/
theorem Says.refl (r : Reporter) : Says [] r r := ⟨rfl, rfl, (List.append_nil _).symm⟩

/-- What is said first is followed by what is said then. -/
theorem Says.trans (h : Says ns r r') (h' : Says ns' r' r'') : Says (ns ++ ns') r r'' :=
  ⟨h'.fatal.trans h.fatal, h'.wording.trans h.wording, by rw [h'.log, h.log, List.append_assoc]⟩

/-- To register a file says nothing. -/
theorem says_registerFile (r : Reporter) (path : String) : Says [] r (r.registerFile path) :=
  ⟨rfl, rfl, (List.append_nil _).symm⟩

/-- To register a line says nothing. -/
theorem says_registerLine (r : Reporter) (path line : String) (num : Int) :
    Says [] r (r.registerLine path line num) :=
  ⟨rfl, rfl, (List.append_nil _).symm⟩

/-- A reporter says what it is told to say. -/
theorem says_notifyAll (r : Reporter) (ns : List Notice) : Says ns r (r.notifyAll ns) := ⟨rfl, rfl, rfl⟩

/-- An error that is thrown is said once. -/
theorem says_throw (r : Reporter) (d : Diagnostic) :
    ∃ place, Says [.error place d] r (r.throw d).2 := by
  rw [throw]
  split
  · exact ⟨_, rfl, rfl, rfl⟩
  · exact ⟨_, rfl, rfl, rfl⟩

/-- A fatal reporter asks to exit when an error is thrown, and no other does. -/
theorem fst_throw (r : Reporter) (d : Diagnostic) :
    (r.throw d).1 = if r.fatal then .error (.exit (.code 1)) else .ok () := by
  rw [throw]
  split <;> rfl

/-- A failure that is put into words is reported once, and asks to exit if the reporter is fatal or the
failure is. -/
theorem absorb_of_worded {d : Diagnostic} (h : f.WordedAs r.wording d) :
    ∃ place, Says [.error place d] r (r.absorb f).2 ∧
      (r.absorb f).1 = if r.fatal || f.isFatal then .error (.exit (.code 1)) else .ok () := by
  obtain ⟨place, hsaid⟩ := says_throw r d
  have hthrow := fst_throw r d
  refine ⟨place, ?_⟩
  cases h with
  | interrupted | tooDeep =>
    rw [absorb, Failure.isFatal, Bool.or_false]
    exact ⟨hsaid, hthrow⟩
  | diagnosed =>
    rw [absorb, Failure.isFatal]
    split
    · next hcause => exact ⟨hsaid, by simp [hcause, throwAndExit]⟩
    · next hcause =>
      rw [decide_eq_false hcause, Bool.or_false]
      exact ⟨hsaid, hthrow⟩
  | defect hd =>
    rw [absorb, hd, Failure.isFatal, Bool.or_true]
    exact ⟨hsaid, rfl⟩

/-- No line is registered. -/
def Unlined (r : Reporter) : Prop := ∀ e ∈ r.traceback.entries, e.2 = none

/-- No line is registered of another file than `path`. -/
def LinedOnly (path : String) (r : Reporter) : Prop :=
  ∀ e ∈ r.traceback.entries, e.1 ≠ path → e.2 = none

variable {path : String}

/-- Where no line is registered, none is of another file. -/
theorem Unlined.linedOnly (h : r.Unlined) : r.LinedOnly path := fun e he _ => h e he

/-- A line of the file is registered. -/
theorem LinedOnly.registerLine (h : r.LinedOnly path) (line : String) (num : Int) :
    (r.registerLine path line num).LinedOnly path := by
  intro e he hne
  rcases OrderedMap.mem_entries_put he with rfl | ⟨he, -⟩
  · exact absurd rfl hne
  · exact h e he hne

/-- The line of the file is taken off. -/
theorem LinedOnly.registerFile (h : r.LinedOnly path) : (r.registerFile path).Unlined := by
  intro e he
  rcases OrderedMap.mem_entries_put he with rfl | ⟨he, hne⟩
  · rfl
  · exact h e he hne

/-- The steps of an evaluation register nothing. -/
theorem traceback_steps {κ : Type} [Shown κ] (r : Reporter) (trace : List (TraceEntry κ)) :
    (r.steps trace).traceback = r.traceback := by
  rw [steps]
  split <;> rfl

/-- No line is registered after an error that is thrown, if it does not exit. -/
theorem unlined_throw {d : Diagnostic} (h : (r.throw d).1 = .ok ()) : (r.throw d).2.Unlined := by
  rw [throw] at h ⊢
  split at h
  · cases h
  · next hfatal =>
    rw [if_neg hfatal]
    intro e he
    obtain ⟨e', -, rfl⟩ := List.mem_map.1 he
    rfl

/-- No line is registered after a failure that nothing comes of. -/
theorem unlined_absorb (h : (r.absorb f).1 = .ok ()) : (r.absorb f).2.Unlined := by
  cases f with
  | interrupted | tooDeep => exact unlined_throw h
  | diagnosed d =>
    rw [absorb] at h ⊢
    split at h
    · cases h
    · next hcause =>
      rw [if_neg hcause]
      exact unlined_throw h
  | defect d =>
    rw [absorb] at h
    split at h <;> cases h
  | exit | unfinished => cases h

/-- A reporter that is not fatal reports a failure that is not fatal, and nothing comes of it; no line is
registered any more. -/
theorem absorb_of_reported_mild (hr : r.fatal = false) (hf : f.Reported) (hmild : f.isFatal = false) :
    ∃ r', r.absorb f = (.ok (), r') ∧ r'.fatal = false ∧ r'.Unlined := by
  obtain ⟨d, hd⟩ := hf r.wording
  obtain ⟨place, hsaid, hgoes⟩ := absorb_of_worded hd
  rw [hr, hmild] at hgoes
  have hok : (r.absorb f).1 = .ok () := hgoes
  exact ⟨_, Prod.ext hok rfl, hsaid.fatal.trans hr, unlined_absorb hok⟩

/-! ## Saying something aside -/

/-- From `r` to `r'` nothing but warnings and steps of evaluations is said. -/
def SaysAside (r r' : Reporter) : Prop := ∃ ns, (∀ n ∈ ns, n.isAside = true) ∧ Says ns r r'

/-- What says nothing says nothing but asides. -/
theorem Says.aside (h : Says [] r r') : SaysAside r r' := ⟨[], fun _ hn => absurd hn List.not_mem_nil, h⟩

/-- Asides are followed by asides. -/
theorem SaysAside.trans (h : SaysAside r r') (h' : SaysAside r' r'') : SaysAside r r'' := by
  obtain ⟨ns, hns, hsaid⟩ := h
  obtain ⟨ns', hns', hsaid'⟩ := h'
  exact ⟨ns ++ ns', List.forall_mem_append.2 ⟨hns, hns'⟩, hsaid.trans hsaid'⟩

/-- Asides do not make a reporter more or less strict. -/
theorem SaysAside.fatal_eq (h : SaysAside r r') : r'.fatal = r.fatal := by
  obtain ⟨ns, -, hsaid⟩ := h
  exact hsaid.fatal

/-- The place that a warning is given: where its subject first occurs in the current line. -/
def placeOf (r : Reporter) (d : Diagnostic) : Option Place :=
  r.currentLine.map fun (file, line, num) =>
    let found : Int := ((Text.find d.subject.toList line.toList).getD 0 : Nat)
    { file, line := num, col := found + d.start + 1 }

/-- Reporters that have the same lines registered give a warning the same place. -/
theorem placeOf_eq (h : r'.traceback = r.traceback) (d : Diagnostic) : r'.placeOf d = r.placeOf d := by
  rw [placeOf, placeOf, currentLine, currentLine, h]

/-- Warnings are said one after another, each of its place. -/
theorem foldl_warn (r : Reporter) (ds : List Diagnostic) :
    ds.foldl warn r = r.notifyAll (ds.map fun d => .warning (r.placeOf d) d) := by
  induction ds generalizing r with
  | nil => rw [List.foldl_nil, List.map_nil, notifyAll, List.append_nil]
  | cons d ds ih =>
    have hplaces : (ds.map fun d' => Notice.warning ((r.warn d).placeOf d') d')
        = ds.map fun d' => .warning (r.placeOf d') d' :=
      List.map_congr_left fun d' _ => congrArg (Notice.warning · d') (placeOf_eq rfl d')
    rw [List.foldl_cons, ih, hplaces, notifyAll, notifyAll, List.map_cons, List.append_cons]
    rfl

/-- Warnings are asides. -/
theorem saysAside_foldl_warn (r : Reporter) (ds : List Diagnostic) : SaysAside r (ds.foldl warn r) := by
  rw [foldl_warn]
  refine ⟨_, fun n hn => ?_, says_notifyAll r _⟩
  obtain ⟨d, -, rfl⟩ := List.mem_map.1 hn
  rfl

/-- The steps of an evaluation are all that is said of it. -/
theorem says_steps {κ : Type} [Shown κ] (r : Reporter) (trace : List (TraceEntry κ)) :
    ∃ ns, (∀ n ∈ ns, ∃ tag text, n = Notice.step tag text) ∧ Says ns r (r.steps trace) := by
  rw [steps]
  split
  · refine ⟨_, fun n hn => ?_, says_notifyAll r _⟩
    obtain ⟨e, -, rfl⟩ := List.mem_map.1 hn
    exact ⟨_, _, rfl⟩
  · exact ⟨[], List.forall_mem_nil _, .refl r⟩

/-- The steps of an evaluation are asides. -/
theorem saysAside_steps {κ : Type} [Shown κ] (r : Reporter) (trace : List (TraceEntry κ)) :
    SaysAside r (r.steps trace) := by
  obtain ⟨ns, hns, hsaid⟩ := says_steps r trace
  refine ⟨ns, fun n hn => ?_, hsaid⟩
  obtain ⟨tag, text, rfl⟩ := hns n hn
  rfl

/-- What has been said beside warnings and steps of evaluations, oldest first. -/
def spoken (r : Reporter) : List Notice := r.log.filter fun n => !n.isAside

/-- To say something else than a warning or a step adds it to what was spoken. -/
theorem spoken_notify (r : Reporter) {n : Notice} (h : n.isAside = false) :
    (r.notify n).spoken = r.spoken ++ [n] := by
  rw [spoken, notify, List.filter_append, List.filter_cons_of_pos (by rw [h]; rfl)]
  rfl

/-- Asides are not spoken. -/
theorem SaysAside.spoken_eq (h : SaysAside r r') : r'.spoken = r.spoken := by
  obtain ⟨ns, hns, hsaid⟩ := h
  have hnone : ns.filter (fun n => !n.isAside) = [] := by
    refine List.filter_eq_nil_iff.2 fun n hn => ?_
    rw [hns n hn]
    exact Bool.false_ne_true
  rw [spoken, hsaid.log, List.filter_append, hnone]
  exact List.append_nil _

end Reporter

end NormalOrder
