import NormalOrder.Diagnostic

/-!
# Notices

What the interpreter says: steps of evaluations, warnings, errors, results, and plain text. A
notice is kept as what it is about and put into words only by `Notice.render`, so that the style of
output has no influence on the work, except where a template has no place for the snippets of its
style.
-/

namespace NormalOrder

/-- The place a notice is about. -/
structure Place where
  file : String
  line : Int
  col : Int

/-- Something the interpreter has said. -/
inductive Notice where
  /-- A step of an evaluation: its tag and the text of its term. -/
  | step (tag text : String)
  | warning (place : Option Place) (d : Diagnostic)
  | error (place : Option Place) (d : Diagnostic)
  /-- The normal form of a line. -/
  | result (t : Expr)
  /-- Anything else, a line or more of text. -/
  | say (s : String)

namespace Place

/-- A place, as it is written before a notice. -/
def render (style : Style) : Option Place → String
  | some p =>
    style.bold none (p.file ++ ":" ++ toString p.line ++ ":" ++ toString p.col ++ ": ")
  | none => ""

end Place

namespace Notice

/-- The excerpt that a notice ends with, if its diagnostic shows one. -/
def excerptLine (style : Style) (colour : Colour) (d : Diagnostic) : String :=
  if d.showsExcerpt then d.excerpt style colour ++ "\n" else ""

/-- A notice as it is written, with the line feed after it. -/
def render (style : Style) : Notice → String
  | step tag s => style.bold (some .cyan) ("  " ++ tag ++ " ") ++ s ++ "\n"
  | warning p d =>
    Place.render style p ++ style.bold (some .magenta) "warning: " ++ d.message.render style ++ "\n"
      ++ excerptLine style .magenta d
  | error p d =>
    Place.render style p ++ (if d.internal then style.bold (some .red) "[internal] " else "")
      ++ style.bold (some .red) "error: " ++ d.message.render style ++ "\n"
      ++ excerptLine style .red d
  | result t => t.text ++ "\n"
  | say s => s ++ "\n"

end Notice

end NormalOrder
