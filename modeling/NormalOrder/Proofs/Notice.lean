import NormalOrder.CommandLine
import NormalOrder.Proofs.Reporter

/-!
# What is written

What a reporter says is written down in full here, apart from how a notice is rendered: a report of an
error (`errorText`) and what is said aside (`AsideText`), each after the place it is about, if there is
one (`PlaceText`). What is said more is written after what was said before
(`Says.written`).
-/

namespace NormalOrder

variable {style : Style}

/-- What stands before a report: nothing, or a file, a line and a column. -/
inductive PlaceText (style : Style) : String → Prop where
  | nowhere : PlaceText style ""
  | inFile (file : String) (line col : Int) :
    PlaceText style (style.bold none (file ++ ":" ++ toString line ++ ":" ++ toString col ++ ": "))

/-- The text of the report of an error. -/
def errorText (style : Style) (place : String) (d : Diagnostic) : String :=
  place ++ (if d.internal then style.bold (some .red) "[internal] " else "")
    ++ style.bold (some .red) "error: " ++ d.message.render style ++ "\n"
    ++ if d.showsExcerpt then d.excerpt style .red ++ "\n" else ""

/-- A place is written as what stands before a report. -/
theorem Place.placeText (style : Style) (p : Option Place) : PlaceText style (Place.render style p) := by
  cases p with
  | none => exact .nowhere
  | some p => exact .inFile p.file p.line p.col

namespace Notice

/-- An error is written as a report, after its place. -/
theorem exists_errorText (style : Style) (p : Option Place) (d : Diagnostic) :
    ∃ place, PlaceText style place ∧ (error p d).render style = errorText style place d :=
  ⟨_, Place.placeText style p, rfl⟩

end Notice

namespace Reporter

variable {r r' : Reporter} {ns : List Notice}

/-- What is said more is written after what was said before. -/
theorem Says.written (h : Says ns r r') (style : Style) :
    r'.written style = r.written style ++ String.join (ns.map (·.render style)) := by
  rw [Reporter.written, h.log, List.map_append, String.join_append]
  rfl

/-- One error that is said is written as one report. -/
theorem Says.written_error {p : Option Place} {d : Diagnostic} (h : Says [.error p d] r r')
    (style : Style) :
    ∃ place, PlaceText style place ∧ r'.written style = r.written style ++ errorText style place d := by
  obtain ⟨place, hplace, htext⟩ := Notice.exists_errorText style p d
  refine ⟨place, hplace, ?_⟩
  rw [h.written, List.map_singleton, htext, String.join_cons, String.join_nil,
    String.append_empty]

end Reporter

end NormalOrder
