import Mathlib
import NormalOrder.Proofs.Notice

/-!
# Failures in nested blocks

Work can be done in several blocks, one inside the other, that are all watched by one reporter. A
failure comes to the innermost block first, and what is left of it to the next (`absorbThrough`). A
failure that is put into words is reported by the innermost block. After that either nothing is left
of it or a request to exit, which every block lets pass; so it is reported once, however many blocks
there are. Whatever is not put into words passes the block, and nothing is said (`worded_or_passes`).

What is said of a failure without an explanation is read as a template. So its text is shown as it is
if there is no brace in it. If there is one the text may be shown otherwise, or not at all: then another
defect, that of the template, is what the next block meets (`absorbThrough_reports`).
-/

namespace NormalOrder.Reporter

variable {r r' : Reporter} {d : Defect} {f : Failure}

/-- What comes of a failure inside `depth` blocks of a reporter, the innermost of which meets it
first. -/
def absorbThrough (r : Reporter) : (depth : Nat) → Failure → Except Failure Unit × Reporter
  | 0, f => (.error f, r)
  | depth + 1, f =>
    match r.absorb f with
    | (.ok (), r') => (.ok (), r')
    | (.error f', r') => r'.absorbThrough depth f'

/-- `r'` has made one report more than `r`, and nothing else was said or written. -/
structure Reports (d : Diagnostic) (r r' : Reporter) : Prop where
  said : ∃ place, Says [.error place d] r r'
  written (style : Style) : ∃ place, PlaceText style place ∧
    r'.written style = r.written style ++ errorText style place d

/-- To say one error is to make one report. -/
theorem Says.reports {place : Option Place} {d : Diagnostic} (h : Says [.error place d] r r') :
    Reports d r r' :=
  ⟨⟨place, h⟩, fun style => h.written_error style⟩

/-- A request to exit passes through every block. -/
theorem absorbThrough_exit (r : Reporter) (depth : Nat) (status : ExitStatus) :
    r.absorbThrough depth (.exit status) = (.error (.exit status), r) := by
  induction depth with
  | zero => rfl
  | succ depth ih => exact ih

/-- A failure that is put into words does not come further than the innermost block, except as a request
to exit. -/
theorem absorbThrough_of_worded {d : Diagnostic} (h : f.WordedAs r.wording d) (depth : Nat) :
    r.absorbThrough (depth + 1) f = r.absorb f := by
  obtain ⟨-, -, hout⟩ := absorb_of_worded h
  generalize habsorb : r.absorb f = out at hout
  obtain ⟨outcome, r'⟩ := out
  rw [absorbThrough, habsorb]
  split at hout
  · cases hout
    exact absorbThrough_exit r' depth (.code 1)
  · cases hout
    rfl

/-- A failure that is put into words is reported once, however many blocks there are, and asks to exit if
the reporter is fatal or the failure is. -/
theorem reports_of_worded {d : Diagnostic} (h : f.WordedAs r.wording d) (depth : Nat) :
    Reports d r (r.absorbThrough (depth + 1) f).2 ∧
      (r.absorbThrough (depth + 1) f).1
        = if r.fatal || f.isFatal then .error (.exit (.code 1)) else .ok () := by
  obtain ⟨place, hsaid, hout⟩ := absorb_of_worded h
  rw [absorbThrough_of_worded h]
  exact ⟨hsaid.reports, hout⟩

/-! ## Failures without an explanation -/

/-- The words of a defect have no brace if its class and its text have none. -/
theorem plain_words (hkind : Template.Plain d.kind.toList) (htext : Template.Plain d.text.toList) :
    Template.Plain d.words.toList := by
  have happend : ∀ {s t : String}, Template.Plain s.toList → Template.Plain t.toList →
      Template.Plain (s ++ t).toList := by
    intro s t hs ht
    rw [String.toList_append]
    exact Template.plain_append.2 ⟨hs, ht⟩
  exact happend (happend (happend (happend (by decide) hkind) (by decide)) htext) (by decide)

/-- A defect whose class and text have no brace is put into its own words as the interpreter's own
fault. -/
theorem worded_of_plain (hkind : Template.Plain d.kind.toList) (htext : Template.Plain d.text.toList)
    (w : Wording) :
    ∃ diagnostic, (Failure.defect d).WordedAs w diagnostic ∧ diagnostic.internal = true ∧
      ∀ style, diagnostic.message.render style = d.words := by
  obtain ⟨message, hm, hwords⟩ := Template.fill_of_plain (plain_words hkind htext) w [""]
  refine ⟨.about .general message "" 0 (-1) true true, .defect ?_, rfl, hwords⟩
  rw [unknown_eq, hm]
  rfl

/-- The report of a fault of the interpreter's own has no excerpt. -/
theorem errorText_internal {diagnostic : Diagnostic} (h : diagnostic.internal = true) (style : Style)
    (place : String) :
    errorText style place diagnostic
      = place ++ style.bold (some .red) "[internal] " ++ style.bold (some .red) "error: "
        ++ diagnostic.message.render style ++ "\n" := by
  have hhidden : diagnostic.showsExcerpt = false := by rw [Diagnostic.showsExcerpt, h]; rfl
  rw [errorText, if_pos h, hhidden, if_neg Bool.false_ne_true, String.append_empty]

/-- A defect whose words are a template that cannot be filled passes the block that meets it as the
defect of the template, and nothing is said. -/
theorem absorb_of_unfilled {d' : Defect} (h : Template.fill r.wording d.words [""] = .error d') :
    r.absorb (.defect d) = (.error (.defect d'), r) := by
  have hunknown : unknown r.wording d = .error d' := by
    rw [unknown_eq, h]
    rfl
  rw [absorb, hunknown]

/-- A failure is put into words, or it passes the block that meets it, as a failure that ends the work if
it does, and nothing is said. -/
theorem worded_or_passes (r : Reporter) (f : Failure) :
    (∃ d, f.WordedAs r.wording d) ∨
      ∃ f', r.absorb f = (.error f', r) ∧ f'.isFatal = f.isFatal := by
  cases f with
  | diagnosed d => exact .inl ⟨d, .diagnosed d⟩
  | interrupted => exact .inl ⟨_, .interrupted⟩
  | tooDeep => exact .inl ⟨_, .tooDeep⟩
  | exit status => exact .inr ⟨.exit status, rfl, rfl⟩
  | unfinished => exact .inr ⟨.unfinished, rfl, rfl⟩
  | defect d =>
    cases hm : Template.fill r.wording d.words [""] with
    | ok message =>
      refine .inl ⟨.about .general message "" 0 (-1) true true, .defect ?_⟩
      rw [unknown_eq, hm]
      rfl
    | error d' => exact .inr ⟨.defect d', absorb_of_unfilled hm, rfl⟩

/-! ## Any failure -/

/-- At most one report is made of a failure. -/
theorem silent_or_reports (r : Reporter) (depth : Nat) (f : Failure) :
    (r.absorbThrough depth f).2 = r ∨ ∃ d, Reports d r (r.absorbThrough depth f).2 := by
  induction depth generalizing f with
  | zero => exact .inl rfl
  | succ depth ih =>
    rcases worded_or_passes r f with ⟨d, hd⟩ | ⟨f', habsorb, -⟩
    · exact .inr ⟨d, (reports_of_worded hd depth).1⟩
    · rw [absorbThrough, habsorb]
      exact ih f'

/-- A failure that ends the work is never absorbed. -/
theorem not_absorbed (h : f.isFatal = true) (r : Reporter) (depth : Nat) :
    (r.absorbThrough depth f).1 ≠ .ok () := by
  induction depth generalizing f with
  | zero => exact nofun
  | succ depth ih =>
    rcases worded_or_passes r f with ⟨d, hd⟩ | ⟨f', habsorb, hfatal⟩
    · rw [(reports_of_worded hd depth).2, h, Bool.or_true]
      exact nofun
    · rw [absorbThrough, habsorb]
      exact ih (hfatal.trans h)

/-- What comes of a failure inside one block or more of one reporter. A request to exit passes, and
nothing is said. A failure that is put into words is reported once, and then comes to a request to exit
if the reporter is fatal or the failure is a broken assumption or a defect, and to nothing otherwise.
A defect whose class and text have no brace is reported with both unchanged, and marked as the
interpreter's own fault. A defect whose words are a template that cannot be filled is not reported by the
innermost block, and comes to the others as the defect of the template. No failure is reported twice, and
no broken assumption and no defect is absorbed. -/
theorem absorbThrough_reports (r : Reporter) (depth : Nat) :
    (∀ status, r.absorbThrough (depth + 1) (.exit status) = (.error (.exit status), r)) ∧
    (∀ f d, f.WordedAs r.wording d →
      Reports d r (r.absorbThrough (depth + 1) f).2 ∧
      (r.absorbThrough (depth + 1) f).1
        = if r.fatal || f.isFatal then .error (.exit (.code 1)) else .ok ()) ∧
    (∀ d : Defect, Template.Plain d.kind.toList → Template.Plain d.text.toList →
      (r.absorbThrough (depth + 1) (.defect d)).1 = .error (.exit (.code 1)) ∧
      ∀ style, ∃ place, PlaceText style place ∧
        (r.absorbThrough (depth + 1) (.defect d)).2.written style
          = r.written style ++ (place ++ style.bold (some .red) "[internal] "
            ++ style.bold (some .red) "error: "
            ++ ("unknown error: '" ++ d.kind ++ ": " ++ d.text ++ "'") ++ "\n")) ∧
    (∀ d d' : Defect, Template.fill r.wording d.words [""] = .error d' →
      r.absorbThrough (depth + 1) (.defect d) = r.absorbThrough depth (.defect d')) ∧
    (∀ f, (r.absorbThrough (depth + 1) f).2 = r ∨
      ∃ d, Reports d r (r.absorbThrough (depth + 1) f).2) ∧
    ∀ f, f.isFatal = true → (r.absorbThrough (depth + 1) f).1 ≠ .ok () := by
  refine ⟨absorbThrough_exit r (depth + 1), fun f d h => reports_of_worded h depth,
    fun d hkind htext => ?_, fun d d' h => ?_, silent_or_reports r (depth + 1),
    fun f h => not_absorbed h r (depth + 1)⟩
  · obtain ⟨diagnostic, hd, hinternal, hwords⟩ := worded_of_plain hkind htext r.wording
    obtain ⟨hreports, hout⟩ := reports_of_worded hd depth
    refine ⟨by rw [hout, Failure.isFatal, Bool.or_true, if_pos rfl], fun style => ?_⟩
    obtain ⟨place, hplace, htext⟩ := hreports.written style
    rw [errorText_internal hinternal, hwords] at htext
    exact ⟨place, hplace, htext⟩
  · rw [absorbThrough, absorb_of_unfilled h]

set_option maxRecDepth 2000 in
/-- In the words of a failure whose text is an empty placeholder the text is left out. -/
theorem fill_empty_placeholder (w : Wording) :
    Template.fill w "unknown error: 'ValueError: \x7b\x7d'" [""]
      = .ok [.styled "unknown error: 'ValueError: '" "unknown error: 'ValueError: \x1b[1m\x1b[0m'"] := by
  obtain ⟨style, attributes⟩ := w
  cases style with
  | plain => cbv
  | terminal => cbv

set_option maxRecDepth 2000 in
/-- The words of a failure whose text is a placeholder by a name cannot be filled. -/
theorem fill_named_placeholder (w : Wording) :
    Template.fill w "unknown error: 'ValueError: \x7bx\x7d'" [""] = .error (.noValue "x") := by
  obtain ⟨style, attributes⟩ := w
  cases style with
  | plain => cbv
  | terminal => cbv

/-- Inside two blocks of a lenient reporter a failure of too deep nesting is reported once and absorbed,
and a name supply that is exhausted is reported once and comes to a request to exit. A failure without an
explanation is reported in its own words if there is no brace in them. If the words have a placeholder by
a name, the outer block meets a failure to look up the name. -/
theorem absorbThrough_reports_twice :
    ∃ (r : Reporter) (deep exhausted : Diagnostic) (plain named : Defect),
      r = { fatal := false } ∧ exhausted = .ofViolation (.namesExhausted 26) ∧
      plain = .foreign "ValueError" "no value" ∧ named = .foreign "ValueError" "\x7bx\x7d" ∧
      Failure.tooDeep.WordedAs r.wording deep ∧
      (Failure.diagnosed exhausted).WordedAs r.wording exhausted ∧
      (Reports deep r (r.absorbThrough 2 .tooDeep).2 ∧ (r.absorbThrough 2 .tooDeep).1 = .ok ()) ∧
      (Reports exhausted r (r.absorbThrough 2 (.diagnosed exhausted)).2 ∧
        (r.absorbThrough 2 (.diagnosed exhausted)).1 = .error (.exit (.code 1))) ∧
      (∃ place, PlaceText .plain place ∧
        (r.absorbThrough 2 (.defect plain)).2.written .plain
          = place ++ "[internal] error: unknown error: 'ValueError: no value'\n") ∧
      r.absorbThrough 2 (.defect named) = r.absorbThrough 1 (.defect (.noValue "x")) ∧
      (r.absorbThrough 2 (.defect named)).1 ≠ .ok () := by
  let r : Reporter := { fatal := false }
  let exhausted : Diagnostic := .ofViolation (.namesExhausted 26)
  let plain : Defect := .foreign "ValueError" "no value"
  let named : Defect := .foreign "ValueError" "\x7bx\x7d"
  have hexhausted : (Failure.diagnosed exhausted).WordedAs r.wording exhausted := .diagnosed exhausted
  have hnamed : Template.fill r.wording named.words [""] = .error (.noValue "x") := by
    rw [show named.words = "unknown error: 'ValueError: \x7bx\x7d'" by decide, fill_named_placeholder]
  have hkind : Template.Plain plain.kind.toList := by
    show Template.Plain "ValueError".toList
    decide
  have htext : Template.Plain plain.text.toList := by
    show Template.Plain "no value".toList
    decide
  obtain ⟨-, hreport, hplain, hunfilled, -, hfatal⟩ := absorbThrough_reports r 1
  obtain ⟨place, hplace, hwritten⟩ := (hplain plain hkind htext).2 .plain
  refine ⟨r, _, exhausted, plain, named, rfl, rfl, rfl, rfl, .tooDeep, hexhausted,
    hreport _ _ .tooDeep, hreport _ _ hexhausted, ⟨place, hplace, ?_⟩, hunfilled _ _ hnamed,
    hfatal _ rfl⟩
  have hnothing : r.written .plain = "" := rfl
  rw [hwritten, hnothing, String.empty_append, String.append_assoc, String.append_assoc,
    String.append_assoc]
  exact congrArg (place ++ ·) (by decide)

/-- Two failures without an explanation that have braces in their texts. Of the first the report leaves
the text out. The second is not reported at all; a failure to look up a name leaves the block instead. -/
theorem absorbThrough_braces :
    ∃ (empty named : Defect) (diagnostic : Diagnostic),
      empty = .foreign "ValueError" "\x7b\x7d" ∧ named = .foreign "ValueError" "\x7bx\x7d" ∧
      diagnostic.message.plain = "unknown error: 'ValueError: '" ∧
      (∀ r : Reporter, Reports diagnostic r (r.absorbThrough 1 (.defect empty)).2) ∧
      ∀ r : Reporter, r.absorbThrough 1 (.defect named) = (.error (.defect (.noValue "x")), r) := by
  let empty : Defect := .foreign "ValueError" "\x7b\x7d"
  let named : Defect := .foreign "ValueError" "\x7bx\x7d"
  have hworded : ∀ w, (Failure.defect empty).WordedAs w
      (.about .general
        [.styled "unknown error: 'ValueError: '" "unknown error: 'ValueError: \x1b[1m\x1b[0m'"] "" 0 (-1)
        true true) := by
    intro w
    refine .defect ?_
    rw [unknown_eq, show empty.words = "unknown error: 'ValueError: \x7b\x7d'" by decide,
      fill_empty_placeholder]
    rfl
  have hnamed : ∀ w, Template.fill w named.words [""] = .error (.noValue "x") := by
    intro w
    rw [show named.words = "unknown error: 'ValueError: \x7bx\x7d'" by decide, fill_named_placeholder]
  refine ⟨empty, named, _, rfl, rfl, by decide, fun r => (reports_of_worded (hworded r.wording) 0).1,
    fun r => ?_⟩
  rw [absorbThrough, absorb_of_unfilled (hnamed r.wording)]
  rfl

end NormalOrder.Reporter
