import NormalOrder.Text.Blank
import NormalOrder.Text.Lines
import NormalOrder.Text.Slice

/-!
# Logical lines

A line of input is cut off where a comment begins and trimmed. A line with more opening than
closing parentheses goes on in the next one that is not blank, and the two are joined by a blank.
`joinLines` forms the logical lines of a file, each numbered as the first of the lines it was
joined from.
-/

namespace NormalOrder

/-- What a comment begins with. -/
def commentMark : List Char := [';', ';']

/-- A line without its comment and the blanks around it. -/
def stripLine (line : List Char) : List Char := Text.trim (Text.upTo commentMark line)

/-- Whether more parentheses open than close. -/
def isOpen (line : List Char) : Bool := line.count '(' > line.count ')'

/-- A logical line and the number of its first line. -/
structure LogicalLine where
  text : List Char
  number : Int

/-- Adds a stripped line to the logical lines of a file, the newest of which comes first and is
continued if `continued`. -/
def addLine (number : Int) (line : List Char) (continued : Bool) :
    List LogicalLine → List LogicalLine
  | newest :: older =>
    if continued then { newest with text := newest.text ++ ' ' :: line } :: older
    else ⟨line, number⟩ :: newest :: older
  | [] => [⟨line, number⟩]

/-- The text of the newest logical line. -/
def newestText (line : List Char) : List LogicalLine → List Char
  | newest :: _ => newest.text
  | [] => line

/-- What a line comes to: the stripped line, or the logical line it completes or begins, and
whether that goes on in the next line. -/
structure Prepared where
  line : List Char
  continued : Bool

/-- Prepares a line by itself. A blank line leaves open whether the line before goes on. -/
def prepare (line : List Char) (continued : Bool) : Prepared :=
  let line := stripLine line
  if line.isEmpty then ⟨line, continued⟩ else ⟨line, isOpen line⟩

/-- Prepares a line of a file, whose logical lines so far come newest first. -/
def prepareFileLine (line : List Char) (number : Int) (continued : Bool)
    (logical : List LogicalLine) : Prepared × List LogicalLine :=
  let line := stripLine line
  if line.isEmpty then (⟨line, continued⟩, logical)
  else
    let logical := addLine number line continued logical
    let whole := newestText line logical
    (⟨whole, isOpen whole⟩, logical)

/-- Joins the lines of a file from line `number` on to its logical lines so far, newest first.
Tells also whether the newest is still to be continued. -/
def joinFrom (number : Int) (continued : Bool) (logical : List LogicalLine) :
    List (List Char) → Bool × List LogicalLine
  | [] => (continued, logical)
  | line :: rest =>
    let (prepared, logical) := prepareFileLine line number continued logical
    joinFrom (number + 1) prepared.continued logical rest

/-- The logical lines of the text of a file, in order. One that is still open at the end of the
file is the last. -/
def joinLines (contents : String) : List LogicalLine :=
  (joinFrom 1 false [] (Text.fileLines contents.toList)).2.reverse

end NormalOrder
