import NormalOrder.CommandLine.Arguments
import NormalOrder.Shell

/-!
# The program

What the program does with its command line: it runs a file and shows the normal forms of its
lines, or it starts the shell. A run of a file shows no result unless every line has one. The
whole program is under the eye of a reporter that is fatal until a shell makes it lenient, so that
an error which the shell does not absorb ends the program.
-/

namespace NormalOrder

/-- What a run of the program leaves: its exit status and what it wrote. -/
structure Transcript where
  status : Int
  out : String := ""
  err : String := ""

namespace Reporter

/-- What has been said so far, as it is written. -/
def written (r : Reporter) (style : Style) : String := String.join (r.log.map (·.render style))

/-- Forgets what has been said. -/
def forget (r : Reporter) : Reporter := { r with log := [] }

end Reporter

namespace Program

/-- The exit status of a program that ended with the given outcome. -/
def status : Except Failure Unit → Int
  | .ok () => 0
  | .error (.exit .unspecified) => 0
  | .error (.exit (.code n)) => n
  | .error _ => 1

/-- Runs a file and reports the normal forms of its lines. -/
def runFile (bound : Nat) (read : String → Option String) (r : Reporter) (path : String)
    (o : Options) : Except Failure Unit × Reporter :=
  match Session.start read r path false o with
  | .error (f, r') => r'.absorb f
  | .ok s =>
    match s.run bound with
    | (.error f, s') => s'.reporter.absorb f
    | (.ok (), s') => (.ok (), s'.reporter.notifyAll (s'.results.map .result))

/-- The shell's answer to a line: what it writes, its outcome and its new state. -/
def answer (style : Style) (bound : Nat) (sh : Shell) (line : String) :
    String × Except Failure Bool × Shell :=
  let (outcome, sh') := sh.feed bound line
  (sh'.session.reporter.written style, outcome, sh'.report (·.forget))

/-- The word that stands for the end of the input. -/
def endOfInput : String := "EOF"

/-- Feeds lines to a shell until it ends; when they run out the end of the input is one more. -/
def converse (style : Style) (bound : Nat) (sh : Shell) : List String → Transcript
  | [] =>
    let (said, outcome, _) := answer style bound sh endOfInput
    ⟨status (outcome.map fun _ => ()), sh.prompt ++ said, ""⟩
  | line :: rest =>
    match answer style bound sh line with
    | (said, .ok false, sh') =>
      let t := converse style bound sh' rest
      { t with out := sh.prompt ++ said ++ t.out }
    | (said, outcome, _) => ⟨status (outcome.map fun _ => ()), sh.prompt ++ said, ""⟩

/-- Runs the program on a command line, with the files that `read` looks up and the text that is
typed. Each evaluation is allowed `bound` steps. -/
def run (style : Style) (bound : Nat) (read : String → Option String) (typed : String)
    (argv : List String) : Transcript :=
  match Request.ofStrings argv with
  | .help => ⟨0, Request.helpText, ""⟩
  | .misuse complaint => ⟨2, "", Request.misuseText complaint⟩
  | .run a =>
    let r : Reporter := { verbose := a.trace, wording := { style } }
    match a.file with
    | some path =>
      let (outcome, r') := runFile bound read r path a.options
      ⟨status outcome, r'.written style, ""⟩
    | none =>
      match Shell.start r a.options with
      | .error (f, r') =>
        let (outcome, r'') := r'.absorb f
        ⟨status outcome, r''.written style, ""⟩
      | .ok sh =>
        let t := converse style bound sh ((Text.lines typed.toList).map String.ofList)
        { t with out := Shell.banner ++ "\n" ++ t.out }

end Program

end NormalOrder
