import NormalOrder.Failure
import NormalOrder.Notice
import NormalOrder.OrderedMap

/-!
# Reporting

The reporter is the one channel through which the interpreter speaks. It keeps a log of notices,
and for each file the line that is being worked on, so that a warning or an error can be placed.
The place is that of the last file in order of first registration that has a line.

A `Failure` ends what is being done. `absorb` decides what comes of one: it reports it, and the
work goes on, or ends with an exit. A fatal reporter exits after every report; any reporter exits
after a broken assumption of the evaluator and after a failure it knows nothing about. A request
to exit passes unreported.
-/

namespace NormalOrder

/-- The files that were registered, each with the text and the number of the line being worked on,
if there is one. -/
abbrev Traceback := OrderedMap String (Option (String × Int))

/-- The state of the reporter. -/
structure Reporter where
  /-- Whether every error ends the program. -/
  fatal : Bool := true
  /-- Whether evaluation steps are reported. -/
  verbose : Bool := false
  traceback : Traceback := .empty
  /-- What has been said, oldest first. -/
  log : List Notice := []
  /-- How failures without an explanation are put into words. -/
  wording : Wording := {}

namespace Reporter

/-- Says something. -/
def notify (r : Reporter) (n : Notice) : Reporter := { r with log := r.log ++ [n] }

/-- Says several things. -/
def notifyAll (r : Reporter) (ns : List Notice) : Reporter := { r with log := r.log ++ ns }

/-- Registers a file without a line, or takes the line of a registered file off. -/
def registerFile (r : Reporter) (path : String) : Reporter :=
  { r with traceback := r.traceback.put path none }

/-- Registers the line of a file that is being worked on. -/
def registerLine (r : Reporter) (path line : String) (num : Int) : Reporter :=
  { r with traceback := r.traceback.put path (some (line, num)) }

/-- Reports a step of an evaluation, if steps are to be reported. -/
def step (r : Reporter) (tag text : String) : Reporter :=
  if r.verbose then r.notify (.step tag text) else r

/-- Reports the trace of an evaluation, if steps are to be reported. -/
def steps {κ : Type} [Shown κ] (r : Reporter) (trace : List (TraceEntry κ)) : Reporter :=
  if r.verbose then r.notifyAll (trace.map fun e => .step e.tag e.text) else r

/-- The last of the registered lines, in the order of their files. -/
def lastLine (entries : List (String × Option (String × Int))) : Option (String × String × Int) :=
  entries.foldl (fun found e => match e.2 with
    | some (line, num) => some (e.1, line, num)
    | none => found) none

/-- The line that notices are about: its file, its text and its number. -/
def currentLine (r : Reporter) : Option (String × String × Int) := lastLine r.traceback.entries

/-- Gives a warning. Its column is where the subject first occurs in the current line. -/
def warn (r : Reporter) (d : Diagnostic) : Reporter :=
  let place := r.currentLine.map fun (file, line, num) =>
    let found : Int := ((Text.find d.subject.toList line.toList).getD 0 : Nat)
    { file, line := num, col := found + d.start + 1 : Place }
  r.notify (.warning place d)

/-- Takes the lines of all files off. -/
def clearLines (r : Reporter) : Reporter :=
  { r with traceback := r.traceback.mapValues fun _ => none }

/-- Reports an error. A fatal reporter then asks to exit; any other forgets the current lines. -/
def throw (r : Reporter) (d : Diagnostic) : Except Failure Unit × Reporter :=
  let place := r.currentLine.map fun (file, _, num) =>
    { file, line := num, col := d.start + 1 : Place }
  let r' := r.notify (.error place d)
  if r.fatal then (.error (.exit (.code 1)), r') else (.ok (), r'.clearLines)

/-- Reports an error and asks to exit. -/
def throwAndExit (r : Reporter) (d : Diagnostic) : Except Failure Unit × Reporter :=
  (.error (.exit (.code 1)), (r.throw d).2)

/-- The diagnostic of a failure without an explanation. The words of the defect are read as a
template in their turn, which may be a defect itself. -/
def unknown (w : Wording) (d : Defect) : Except Defect Diagnostic :=
  Diagnostic.ofTemplate .general ("unknown error: '" ++ d.kind ++ ": " ++ d.text ++ "'") [""] 0 (-1)
    true true w

/-- Decides what comes of a failure: nothing more once it has been reported, or another failure
that takes its place. -/
def absorb (r : Reporter) : Failure → Except Failure Unit × Reporter
  | .interrupted => r.throw (.plain "keyboard interrupt" false false)
  | .exit status => (.error (.exit status), r)
  | .tooDeep =>
    r.throw (.plain "beta normal form might exist, but maximum recursion depth exceeded" true false)
  | .diagnosed d => if d.cause = .violation then r.throwAndExit d else r.throw d
  | .defect d =>
    match unknown r.wording d with
    | .ok diagnostic => r.throwAndExit diagnostic
    | .error d' => (.error (.defect d'), r)
  | .unfinished => (.error .unfinished, r)

end Reporter

end NormalOrder
