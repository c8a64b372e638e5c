import NormalOrder.Session
import NormalOrder.Shell.Command

/-!
# The shell

The shell is a session on typed lines. A line of source text is evaluated at once and its normal
form shown, unless it has more opening than closing parentheses; then it waits for the lines that
complete it, and the prompt changes. Commands are obeyed also while a line waits. Errors are
reported and the shell goes on.
-/

namespace NormalOrder

/-- The prompt for a new line. -/
def Shell.primaryPrompt : String := "\\>> "

/-- The prompt for the rest of a line. -/
def Shell.secondaryPrompt : String := ". "

/-- The state of a shell. -/
structure Shell where
  session : Session
  /-- The text of the line that waits to be completed; empty if none does. -/
  pending : String := ""
  /-- The prompt for the next line. -/
  prompt : String := Shell.primaryPrompt
  /-- How many lines of source text have been typed. -/
  lineNumber : Int := 0

namespace Shell

/-- What is shown when the shell begins. -/
def banner : String :=
  "metalambda :: lambda calculus interpreter\nType '?' or 'help' for more information."

/-- What is shown to a user who asks for help. -/
def introduction : String :=
  "Welcome to the metalambda interpreter!\n\n" ++
  "Lambda calculus is a Turing-complete language created by Alonzo Church. This \n" ++
  "interpreter reduces λ-terms (written \\x.body or λx.body) to their normal form, \n" ++
  "and lets you name terms with capitalized metavariables.\n\n" ++
  "Try it out by typing 'ID <- \\x.x'. This will bind the λ-term '\\x.x' to the \n" ++
  "name 'ID'. Next, try typing 'ID y'. This will apply 'ID' to 'y', giving 'y' as \n" ++
  "the result. Type 'env' to see every bound name, 'trace' to watch reductions."

/-- Opens a shell that speaks through the given reporter. -/
def start (r : Reporter) (o : Options) : Except (Failure × Reporter) Shell :=
  (Session.start (fun _ => none) r Session.typedPath true o).map fun session => { session }

/-- Applies `f` to the reporter. -/
def report (sh : Shell) (f : Reporter → Reporter) : Shell :=
  { sh with session := sh.session.report f }

/-- Says something. -/
def say (sh : Shell) (s : String) : Shell := sh.report (·.notify (.say s))

/-- Lets the reporter decide what comes of an operation on the session. The shell goes on unless
a failure is left. -/
def guarded (sh : Shell) (r : Outcome Session Unit) : Outcome Shell Bool :=
  match Session.guarded r with
  | (.ok (), session) => (.ok false, { sh with session })
  | (.error f, session) => (.error f, { sh with session })

/-- Evaluates a complete line and shows the newest result. -/
def evaluateLine (bound : Nat) (s : Session) (line : String) (num : Int) : Outcome Session Unit :=
  match s.add line num with
  | (.error f, s') => (.error f, s')
  | (.ok (), s') =>
    match s'.run bound with
    | (.error f, s'') => (.error f, s'')
    | (.ok (), s'') =>
      match s''.pop with
      | (.ok v, s''') => (.ok (), s'''.report (·.notify (.result v)))
      | (.error _, s''') => (.ok (), s''')

/-- Takes a line of source text: evaluates it, or keeps it until it is complete. -/
def source (bound : Nat) (sh : Shell) (line : String) : Outcome Shell Bool :=
  if line = ":q" && sh.pending = "" then (.ok true, sh)
  else
    let number := sh.lineNumber + 1
    let joined := if sh.pending = "" then line else sh.pending ++ " " ++ line
    let prepared := prepare joined.toList (sh.pending ≠ "")
    let text := String.ofList prepared.line
    if prepared.continued then
      (.ok false, { sh with pending := text, prompt := secondaryPrompt, lineNumber := number })
    else
      let sh := { sh with pending := "", prompt := primaryPrompt, lineNumber := number }
      if text = "" then (.ok false, sh)
      else sh.guarded (evaluateLine bound sh.session text number)

/-- A line of the list of named values. -/
def entryLine (env : OrderedMap String Expr) (name : String) : String :=
  match env.get? name with
  | some v => name ++ " <- " ++ v.text
  | none => name ++ " is not bound"

/-- Lists the values of names, or of all names if none is given. -/
def listValues (sh : Shell) (names : List String) : Shell :=
  let env := sh.session.evaluator.environment
  (if names.isEmpty then env.keys else names).foldl (fun sh n => sh.say (entryLine env n)) sh

/-- Shows the syntax tree of an expression. -/
def showTree (s : Session) (source : String) : Outcome Session Unit :=
  match (Term.parse source : Except SourceError Expr) with
  | .ok t => (.ok (), s.report (·.notify (.say (t.outline 0))))
  | .error e => (.error (.ofSourceError source e), s)

/-- Turns the report of evaluation steps on or off. -/
def toggleTrace (sh : Shell) : Shell :=
  let on := !sh.session.reporter.verbose
  (sh.report ({ · with verbose := on })).say ("tracing " ++ if on then "on" else "off")

/-- Explains a command. -/
def explain (sh : Shell) (topic : String) : Shell :=
  sh.say ((Command.helpText? topic).getD ("*** No help on " ++ topic))

/-- Obeys a command; the value tells whether the shell ends. -/
def obey (bound : Nat) (sh : Shell) : Command → Outcome Shell Bool
  | .nothing => (.ok false, sh)
  | .env names => (.ok false, sh.listValues names)
  | .tree source => sh.guarded (showTree sh.session source)
  | .trace => (.ok false, sh.toggleTrace)
  | .introduce => (.ok false, sh.say introduction)
  | .help topic => (.ok false, sh.explain topic)
  | .leave fresh => (.ok true, if fresh then sh.say "" else sh)
  | .source line => sh.source bound line

/-- Takes a typed line; evaluations are allowed `bound` steps. -/
def feed (bound : Nat) (sh : Shell) (line : String) : Outcome Shell Bool :=
  sh.obey bound (.ofLine line)

end Shell

end NormalOrder
