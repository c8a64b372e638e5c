/-!
# Messages

A message is text in which some stretches are snippets, pieces of the user's source. It is written
in a `Style`: plain, or with the escape sequences by which a terminal shows bold and coloured
characters. Snippets are bold and nothing else of a message is set off, so that the plain form is
the styled one without its escape sequences. Where a snippet was laid out in a field its two forms
can differ in more than that.
-/

namespace NormalOrder

/-- How output is written. -/
inductive Style where
  | plain
  | terminal
deriving DecidableEq

/-- The colours that output uses. -/
inductive Colour where
  | red
  | magenta
  | cyan
deriving DecidableEq

namespace Style

/-- The escape sequence that sets one attribute of a terminal. -/
def escape (n : Nat) : String := "\x1b[" ++ toString n ++ "m"

/-- The terminal attribute of a colour. -/
def code : Colour → Nat
  | .red => 31
  | .magenta => 35
  | .cyan => 36

/-- The text `s` in bold, and in a colour if one is given. -/
def bold (style : Style) (colour : Option Colour) (s : String) : String :=
  match style with
  | plain => s
  | terminal =>
    escape 1 ++ (match colour with | some c => escape (code c) | none => "") ++ s ++ escape 0

end Style

/-- A stretch of a message. -/
inductive Piece where
  | text (s : String)
  | snippet (s : String)
  /-- Text that is different in the two styles. -/
  | styled (plain terminal : String)
deriving DecidableEq

/-- A message: its stretches in order. -/
abbrev Message := List Piece

namespace Message

/-- A stretch as it is written. -/
def renderPiece (style : Style) : Piece → String
  | .text s => s
  | .snippet s => style.bold none s
  | .styled plain terminal => match style with
    | .plain => plain
    | .terminal => terminal

/-- A message as it is written. -/
def render (style : Style) (m : Message) : String := String.join (m.map (renderPiece style))

/-- The text of a message. -/
def plain (m : Message) : String := m.render .plain

end Message

end NormalOrder
