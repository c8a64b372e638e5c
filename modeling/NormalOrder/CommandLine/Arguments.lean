import NormalOrder.Prelude
import NormalOrder.Text.Numeral
import NormalOrder.Text.Quoted

/-!
# Command-line arguments

The words of a command line are flags, which begin with a hyphen, and operands, of which one, the
file to run, may be given. A long flag may be cut short as long as only one flag begins that way,
and the value of a flag may follow it after an equals sign; the word `--` is no value, and leaves
blank what it is given for. A word that looks like a negative number is an operand, and after the
word `--` every word is one.

`Request.ofWords` reads a command line from left to right. The first fault ends it, except that
words nobody asked for are collected and complained of at the end; a flag that asks for help ends
it too.
-/

namespace NormalOrder

/-- The flags. -/
inductive Flag where
  | help
  | trace
  | maxSteps
  | noPrelude
  | subscripts
deriving DecidableEq

namespace Flag

/-- All flags with their spellings. -/
def spellings : List (String × Flag) :=
  [("-h", help), ("--help", help), ("--trace", trace), ("--max-steps", maxSteps),
    ("--no-prelude", noPrelude), ("--subscripts", subscripts)]

/-- The flag with a given spelling. -/
def spelled? (s : String) : Option Flag := (spellings.find? fun e => e.1 == s).map Prod.snd

/-- A flag as complaints name it. -/
def name : Flag → String
  | help => "-h/--help"
  | trace => "--trace"
  | maxSteps => "--max-steps"
  | noPrelude => "--no-prelude"
  | subscripts => "--subscripts"

end Flag

/-- A word of the command line. -/
inductive Word where
  /-- A word that is no flag. -/
  | operand (s : String)
  /-- The word that ends the flags. -/
  | separator
  /-- A flag, with the value that follows it after an equals sign. -/
  | flag (f : Flag) (value : Option String)
  /-- The letter that asks for help, with the characters run together with it. -/
  | letters (more : List Char)
  /-- A word that looks like a flag and is none. -/
  | unknown (s : String)

/-- What the command line asks for. -/
structure Arguments where
  /-- The file to run; without one, the shell is started. -/
  file : Option String := none
  trace : Bool := false
  options : Options := {}

/-- What is to be done about a command line. -/
inductive Request where
  | run (a : Arguments)
  | help
  | misuse (complaint : String)

namespace Word

/-- The parts of a word before and after its first equals sign. -/
def splitValue (cs : List Char) : List Char × Option (List Char) :=
  match cs.dropWhile (· ≠ '=') with
  | [] => (cs, none)
  | _ :: value => (cs.takeWhile (· ≠ '='), some value)

/-- A text without the line feed that it may end with. -/
def dropFinalNewline (cs : List Char) : List Char :=
  if cs.getLast? = some '\n' then cs.dropLast else cs

/-- Whether a text is a row of digits, with a decimal point before the last of them or none. -/
def isDecimal (cs : List Char) : Bool :=
  let isDigit (c : Char) : Bool := (Text.digitValue? c).isSome
  match cs.dropWhile isDigit with
  | [] => !cs.isEmpty
  | '.' :: fraction => !fraction.isEmpty && fraction.all isDigit
  | _ => false

/-- Whether a word is a negative decimal number. A line feed may follow the number. -/
def isNegativeNumber : List Char → Bool
  | '-' :: cs => isDecimal (dropFinalNewline cs)
  | _ => false

/-- The spellings that a word beginning with two hyphens may be short for. -/
def completions (start : List Char) : List (String × Flag) :=
  Flag.spellings.filter fun e => start.isPrefixOf e.1.toList

/-- A word that begins with a hyphen and is not the exact spelling of a flag. -/
def ofAbbreviation (s : String) : Except String Word :=
  let other : Except String Word :=
    if isNegativeNumber s.toList || s.toList.contains ' ' then .ok (.operand s)
    else .ok (.unknown s)
  match s.toList with
  | '-' :: '-' :: _ =>
    let (start, value) := splitValue s.toList
    match completions start with
    | [] => other
    | [(_, f)] => .ok (.flag f (value.map String.ofList))
    | several =>
      .error ("ambiguous option: " ++ s ++ " could match "
        ++ ", ".intercalate (several.map Prod.fst))
  | '-' :: 'h' :: more => .ok (.letters more)
  | _ => other

/-- A flag with the spelling `spelling` and the value that follows it after an equals sign. For a
letter the characters of a value are run together with it all the same. -/
def withValue (spelling : List Char) (f : Flag) (value : List Char) : Word :=
  match spelling, value with
  | [_, _], _ :: _ => .letters value
  | _, _ => .flag f (some (String.ofList value))

/-- What a word before the separator is. -/
def ofString (s : String) : Except String Word :=
  match s.toList with
  | '-' :: _ :: _ =>
    match Flag.spelled? s with
    | some f => .ok (.flag f none)
    | none =>
      let (start, value) := splitValue s.toList
      match Flag.spelled? (String.ofList start), value with
      | some f, some v => .ok (withValue start f v)
      | _, _ => ofAbbreviation s
  | _ => .ok (.operand s)

/-- The words of a command line. -/
def ofStrings : List String → Except String (List Word)
  | [] => .ok []
  | s :: rest =>
    if s = "--" then .ok (.separator :: rest.map .operand)
    else
      match ofString s with
      | .error e => .error e
      | .ok w => (ofStrings rest).map (w :: ·)

end Word

namespace Arguments

/-- A complaint about the use of a flag. -/
def about (f : Flag) (complaint : String) : String := "argument " ++ f.name ++ ": " ++ complaint

/-- The complaint about a value that a flag has no use for. -/
def ignoredValue (f : Flag) (value : String) : String :=
  about f ("ignored explicit argument " ++ Text.quoted value)

/-- The budget that the value of its flag writes. -/
def readBudget (value : String) : Except String Budget :=
  if value = "--" then .ok .blank
  else
    match Text.readInt? value with
    | some n => .ok (.atMost n)
    | none => .error (about .maxSteps ("invalid int value: " ++ Text.quoted value))

/-- Sets the budget of contractions from the value of its flag. -/
def setBudget (a : Arguments) (value : String) : Except String Arguments :=
  (readBudget value).map fun budget => { a with options := { a.options with budget } }

/-- The complaint about the characters run together with the letter that asks for help, which may
be repeated and nothing else. -/
def lettersComplaint (more : List Char) : Option String :=
  match more.dropWhile (· = 'h') with
  | [] => none
  | rest => some (ignoredValue .help (String.ofList rest))

/-- Sets a flag without a value; `none` for the flag that asks for help. -/
def setFlag (a : Arguments) : Flag → Option Arguments
  | .help => none
  | .trace => some { a with trace := true }
  | .noPrelude => some { a with options := { a.options with withPrelude := false } }
  | .subscripts => some { a with options := { a.options with subscripts := true } }
  | .maxSteps => some a

end Arguments

namespace Request

/-- The complaint about words nobody asked for, or else the request to run. -/
def finish (a : Arguments) (extra : List String) : Request :=
  if extra.isEmpty then .run a
  else .misuse ("unrecognized arguments: " ++ " ".intercalate extra)

/-- Reads words one by one. `taken` tells that the file was given, and `extra` holds the words
nobody asked for. A separator beside the file goes unnoticed. -/
def ofWords (a : Arguments) (taken : Bool) (extra : List String) : List Word → Request
  | [] => finish a extra
  | .operand s :: .separator :: rest =>
    if taken then ofWords a true (extra ++ [s, "--"]) rest
    else ofWords { a with file := some s } true extra rest
  | .operand s :: rest =>
    if taken then ofWords a true (extra ++ [s]) rest
    else ofWords { a with file := some s } true extra rest
  | .separator :: rest => ofWords a taken (if taken then extra ++ ["--"] else extra) rest
  | .unknown s :: rest => ofWords a taken (extra ++ [s]) rest
  | .flag .maxSteps (some value) :: rest =>
    match a.setBudget value with
    | .ok a' => ofWords a' taken extra rest
    | .error e => .misuse e
  | .flag .maxSteps none :: .operand value :: rest =>
    match a.setBudget value with
    | .ok a' => ofWords a' taken extra rest
    | .error e => .misuse e
  | .flag .maxSteps none :: _ => .misuse (Arguments.about .maxSteps "expected one argument")
  | .flag f (some value) :: _ => .misuse (Arguments.ignoredValue f value)
  | .flag f none :: rest =>
    match a.setFlag f with
    | none => .help
    | some a' => ofWords a' taken extra rest
  | .letters more :: _ =>
    match Arguments.lettersComplaint more with
    | some e => .misuse e
    | none => .help

/-- What is to be done about a command line. -/
def ofStrings (argv : List String) : Request :=
  match Word.ofStrings argv with
  | .error e => .misuse e
  | .ok ws => ofWords {} false [] ws

/-- How the program is used, in short. -/
def usage : String :=
  "usage: metalambda [-h] [--trace] [--max-steps MAX_STEPS] [--no-prelude]\n" ++
  "                  [--subscripts]\n" ++
  "                  [file]\n"

/-- How the program is used. -/
def helpText : String :=
  usage ++
  "\n" ++
  "positional arguments:\n" ++
  "  file                  file to interpret and run (if empty, goes to command-\n" ++
  "                        line mode)\n" ++
  "\n" ++
  "options:\n" ++
  "  -h, --help            show this help message and exit\n" ++
  "  --trace               print every evaluation step\n" ++
  "  --max-steps MAX_STEPS\n" ++
  "                        give up after this many beta reductions per expression\n" ++
  "  --no-prelude          start without the standard combinators\n" ++
  "  --subscripts          allow subscripted fresh names (a₁, b₁, ...) once a-z\n" ++
  "                        run out\n"

/-- What is written about a misuse. -/
def misuseText (complaint : String) : String :=
  usage ++ "metalambda: error: " ++ complaint ++ "\n"

end Request

end NormalOrder
