import NormalOrder.Text.Blank

/-!
# Shell commands

A line that is typed at the prompt is a command if the first word of it is the name of one, and
source text otherwise. The first word is the longest run of letters, digits and underscores that
the line begins with, once it is trimmed; what follows is the command's argument. A question mark
at the beginning stands for the word `help`.
-/

namespace NormalOrder

/-- What a typed line asks for. -/
inductive Command where
  /-- Nothing: the line is blank. -/
  | nothing
  /-- To list the named values, or all of them if no name is given. -/
  | env (names : List String)
  /-- To show the syntax tree of an expression. -/
  | tree (source : String)
  /-- To turn the report of evaluation steps on or off. -/
  | trace
  /-- To introduce the interpreter. -/
  | introduce
  /-- To explain a command. -/
  | help (topic : String)
  /-- To leave the shell, on a line of its own if `fresh`. -/
  | leave (fresh : Bool)
  /-- To evaluate an expression. -/
  | source (line : String)
deriving DecidableEq

namespace Command

/-- Characters of command words: ASCII letters and digits, and the underscore. -/
def isWordChar (c : Char) : Bool := c.isAlphanum || c == '_'

/-- The explanation of a command. -/
def helpText? : String → Option String
  | "env" => some "Lists bound names and their values. With arguments, only lists those names."
  | "tree" => some "Displays the syntax tree of an expression without evaluating it."
  | "trace" => some "Toggles printing of evaluation steps (δ: expansion, β: beta reduction)."
  | "help" => some "Doesnt return docs, but rather a short intro."
  | "EOF" | "exit" | "quit" => some "Exits interpreter."
  | _ => none

/-- The command with the given name and argument, if there is one. -/
def named? (word : String) (argument : List Char) : Option Command :=
  match word with
  | "env" => some (.env ((Text.words argument).map String.ofList))
  | "tree" => some (.tree (String.ofList argument))
  | "trace" => some .trace
  | "help" => some (if argument.isEmpty then .introduce else .help (String.ofList argument))
  | "EOF" => some (.leave true)
  | "exit" | "quit" => some (.leave false)
  | _ => none

/-- What a line asks for that is neither blank nor begins with a question mark. -/
def ofWords (line : List Char) : Command :=
  let word := line.takeWhile isWordChar
  let argument := Text.trim (line.dropWhile isWordChar)
  (named? (String.ofList word) argument).getD (.source (String.ofList line))

/-- What a typed line asks for. -/
def ofLine (line : String) : Command :=
  match Text.trim line.toList with
  | [] => .nothing
  | '?' :: rest => ofWords ("help ".toList ++ rest)
  | cs => ofWords cs

end Command

end NormalOrder
