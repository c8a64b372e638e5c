import NormalOrder.Prelude
import NormalOrder.Reporter
import NormalOrder.Session.Lines

/-!
# Sessions

A session reads source lines, from a file or as they are typed, queues the expressions they stand
for and evaluates the queue in order. While it works on a line that line is registered with the
reporter. A line that fails leaves the session, so that evaluation can go on with the next; what
it stored until then stays stored. Before a line is evaluated the session warns of every name the
line would overwrite.
-/

namespace NormalOrder

/-- A line that waits for evaluation: its text and the expression it stands for. -/
structure Queued where
  line : String
  expression : Expr

/-- The state of a session. -/
structure Session where
  /-- The file that lines come from. -/
  path : String
  reporter : Reporter
  evaluator : Evaluator Empty
  /-- The lines that wait, by their numbers, in the order of evaluation. -/
  queue : OrderedMap Int Queued
  /-- The normal forms that were computed, oldest first. -/
  results : List Expr

/-- An operation's outcome: a value, or the failure that ended it, and the state it left. -/
abbrev Outcome (σ α : Type) := Except Failure α × σ

namespace Session

/-- The name under which typed lines go. -/
def typedPath : String := "<in>"

/-- Applies `f` to the reporter. -/
def report (s : Session) (f : Reporter → Reporter) : Session := { s with reporter := f s.reporter }

/-- Parses a line and puts it into the queue. -/
def add (s : Session) (line : String) (num : Int) : Outcome Session Unit :=
  let s := s.report (·.registerLine s.path line num)
  match Term.parse line with
  | .ok t =>
    let s := { s with queue := s.queue.put num ⟨line, t⟩ }
    (.ok (), s.report (·.registerFile s.path))
  | .error e => (.error (.ofSourceError line e), s)

/-- Adds lines in order, up to the first that fails. -/
def addAll (s : Session) : List LogicalLine → Outcome Session Unit
  | [] => (.ok (), s)
  | l :: rest =>
    match s.add (String.ofList l.text) l.number with
    | (.ok (), s') => s'.addAll rest
    | failed => failed

/-- The warning that a name is bound already. -/
def overwriteWarning (name : String) : Diagnostic :=
  .aboutSnippet .general "binding overwrites '" name "'" false false

/-- Warns of each name in a list that is bound already. -/
def warnOverwrites (s : Session) (names : List String) : Session :=
  (names.filter s.evaluator.environment.contains).foldl
    (fun s n => s.report (·.warn (overwriteWarning n))) s

/-- Evaluates one queued line and takes it out of the queue. -/
def runLine (bound : Nat) (s : Session) (num : Int) (q : Queued) : Outcome Session Unit :=
  let s := (s.report (·.registerLine s.path q.line num)).warnOverwrites q.expression.boundNames
  let run := s.evaluator.evaluate bound q.expression
  let s := { s with evaluator := run.state, queue := s.queue.erase num }
  let s := s.report (·.steps run.trace)
  match run.outcome with
  | .error e => (.error ((Failure.ofEvalError e).locate q.line), s)
  | .ok v =>
    let s := s.report (·.registerFile s.path)
    (.ok (), { s with results := s.results ++ [v] })

/-- Evaluates queued lines in order, up to the first that fails. -/
def runLines (bound : Nat) (s : Session) : List (Int × Queued) → Outcome Session Unit
  | [] => (.ok (), s)
  | (num, q) :: rest =>
    match s.runLine bound num q with
    | (.ok (), s') => s'.runLines bound rest
    | failed => failed

/-- Evaluates the queue, each line in at most `bound` steps. -/
def run (bound : Nat) (s : Session) : Outcome Session Unit := s.runLines bound s.queue.entries

/-- Takes the newest result. -/
def pop (s : Session) : Outcome Session Expr :=
  match s.results.getLast? with
  | some v => (.ok v, { s with results := s.results.dropLast })
  | none => (.error (.defect .noResult), s)

/-- Hands a failure to the reporter. -/
def guarded (r : Outcome Session Unit) : Outcome Session Unit :=
  match r with
  | (.ok (), s) => (.ok (), s)
  | (.error f, s) =>
    let (outcome, reporter) := s.reporter.absorb f
    (outcome, { s with reporter })

/-- The diagnostic of a file that cannot be read. -/
def unreadableFile (path : String) : Diagnostic :=
  .aboutSnippet .general "'" path "' could not be opened" false false

/-- The diagnostic of a file that goes by the name of the typed lines. -/
def reservedFile : Diagnostic := .plain "'<in>' is a reserved filename" false false

/-- Opens a session on `path`, whose text `read` looks up. In a session that is `typed` errors are
not fatal. Typed lines go under a name of their own, which no file can have. -/
def start (read : String → Option String) (r : Reporter) (path : String) (typed : Bool)
    (o : Options) : Except (Failure × Reporter) Session :=
  let r := r.registerFile path
  let r := if typed then { r with fatal := false } else r
  let s : Session := ⟨path, r, .new o, .empty, []⟩
  if path = typedPath then
    if typed then .ok s
    else .error (.diagnosed reservedFile, r)
  else if path.contains '\x00' then .error (.defect .nullInPath, r)
  else
    match read path with
    | none => .error (.diagnosed (unreadableFile path), r)
    | some contents =>
      match s.addAll (joinLines contents) with
      | (.ok (), s') => .ok s'
      | (.error f, s') => .error (f, s'.reporter)

end Session

end NormalOrder
