/-!
# Lines

A line ends with a line feed. `segments` cuts a text at its line feeds and has one part more than
there are line feeds; `lines` leaves out a last part that is empty, since the line feed before it
only ended the line before. A text file may end its lines also with a carriage return, or with
both; `unifyNewlines` makes each of these one line feed, so that `fileLines` does not tell them
apart.
-/

namespace NormalOrder.Text

/-- Writes every line ending as one line feed. -/
def unifyNewlines : List Char → List Char
  | '\r' :: '\n' :: rest => '\n' :: unifyNewlines rest
  | '\r' :: rest => '\n' :: unifyNewlines rest
  | c :: rest => c :: unifyNewlines rest
  | [] => []

/-- The parts of a text between its line feeds. -/
def segments : List Char → List (List Char)
  | [] => [[]]
  | c :: rest =>
    if c = '\n' then [] :: segments rest
    else match segments rest with
      | part :: parts => (c :: part) :: parts
      | [] => [[c]]

/-- Leaves out the last part if it is empty. -/
def dropLastEmpty : List (List Char) → List (List Char)
  | [] => []
  | [part] => if part.isEmpty then [] else [part]
  | part :: parts => part :: dropLastEmpty parts

/-- The lines of a text, without the line feeds that end them. -/
def lines (cs : List Char) : List (List Char) := dropLastEmpty (segments cs)

/-- The lines of the text of a file, without their endings. -/
def fileLines (cs : List Char) : List (List Char) := lines (unifyNewlines cs)

end NormalOrder.Text
