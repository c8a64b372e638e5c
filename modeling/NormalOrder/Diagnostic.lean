import NormalOrder.Diagnostic.Template
import NormalOrder.Evaluator
import NormalOrder.Term.Parser
import NormalOrder.Text.Lines
import NormalOrder.Text.Slice

/-!
# Diagnostics

A diagnostic is what the interpreter tells its user about an error or a warning: a message, the
text that is at fault, the stretch of that text to point at, and whether to point at all. This
module says how each kind of error is put into words.

The `excerpt` of a diagnostic is the text at fault with the stretch set off in colour, and under
it a caret at the beginning of the stretch, followed by tildes up to its end. A stretch is at least
one character long.
-/

namespace NormalOrder

/-- The kinds of errors that have a diagnostic. -/
inductive Cause where
  /-- An error, or a warning, of no special kind. -/
  | general
  /-- A character that begins no token. -/
  | lexical
  /-- Tokens that make no term. -/
  | grammar
  /-- A metavariable that has no value. -/
  | unbound (name : String) (location : Option Location)
  /-- A broken assumption of the evaluator. -/
  | violation
  /-- A budget of contractions that did not suffice. -/
  | overBudget (budget : Int)
deriving DecidableEq

/-- What is told about an error or a warning. -/
structure Diagnostic where
  cause : Cause
  message : Message
  /-- The text at fault. -/
  subject : String
  /-- Where the stretch pointed at begins in the subject, counted from zero. -/
  start : Int
  /-- Where it ends. -/
  stop : Int
  /-- Whether the subject is shown. -/
  pointed : Bool
  /-- Whether the fault is the interpreter's own. -/
  internal : Bool

namespace Diagnostic

/-- A diagnostic with the given message about `subject`. The end -1 stands for the end of the
subject. -/
def about (cause : Cause) (message : Message) (subject : String) (start stop : Int)
    (pointed internal : Bool) : Diagnostic :=
  { cause, message, subject, start, stop := if stop = -1 then subject.length else stop,
    pointed, internal }

/-- A diagnostic whose message is a template filled with `snippets`; the first snippet is the
text at fault. -/
def ofTemplate (cause : Cause) (template : String) (snippets : List String) (start stop : Int)
    (pointed internal : Bool) (w : Wording := {}) : Except Defect Diagnostic :=
  match Template.fill w template snippets, snippets with
  | .error d, _ => .error d
  | .ok _, [] => .error .outOfRange
  | .ok message, subject :: _ => .ok (about cause message subject start stop pointed internal)

/-- A diagnostic that consists of its message alone. -/
def plain (message : String) (pointed internal : Bool) : Diagnostic :=
  about .general [.text message] "" 0 (-1) pointed internal

/-- A diagnostic with one snippet, which is the text at fault. -/
def aboutSnippet (cause : Cause) (beforeSnippet snippet afterSnippet : String)
    (pointed internal : Bool) : Diagnostic :=
  about cause [.text beforeSnippet, .snippet snippet, .text afterSnippet] snippet 0 (-1) pointed
    internal

/-- Where the stretch pointed at ends, at least one character after it begins. -/
def pointedEnd (d : Diagnostic) : Int := max d.stop (d.start + 1)

/-- The subject with the stretch set off, and a caret with tildes below the stretch. -/
def excerpt (d : Diagnostic) (style : Style) (colour : Colour) : String :=
  "  " ++ Text.before d.subject d.start
    ++ style.bold (some colour) (Text.slice d.subject d.start d.pointedEnd)
    ++ Text.after d.subject d.pointedEnd ++ "\n"
    ++ "  " ++ Text.repeated d.start ' '
    ++ style.bold (some colour) ("^" ++ Text.repeated (d.pointedEnd - d.start - 1) '~')

/-- Whether the subject is shown below the message. -/
def showsExcerpt (d : Diagnostic) : Bool :=
  !d.internal && !d.subject.isEmpty && d.pointed

/-! ## Errors of the source text -/

/-- The diagnostic of an unreadable character of `source`. It shows the line of the character,
which may lie beyond the text if lines were counted before it began. -/
def ofUnreadable (source : String) (e : Unreadable) : Except Defect Diagnostic :=
  match (Text.segments source.toList)[(e.location.line - 1).toNat]? with
  | none => .error .outOfRange
  | some line =>
    let line := String.ofList line
    let message : Message := [.text "'", .snippet line, .text "': unexpected character '",
      .snippet (String.singleton e.char),
      .text (if e.char = '<' then "', did you mean '<-'?" else "'")]
    .ok (about .lexical message line (e.location.col - 1) e.location.col true false)

/-- The wording of what was expected. -/
def expectation : Expected → String
  | .term => "expected a λ-term"
  | .token k => "expected " ++ k.describe

/-- The diagnostic of tokens that make no term; `source` is the text they were read from. -/
def ofReadError (source : String) : ReadError → Except Defect Diagnostic
  | .brokenOff => .error .outOfRange
  | .misplaced expected found =>
    let start := found.location.col - 1
    let message : Message := [.text "'", .snippet source,
      .text ("': " ++ expectation expected ++ ", found " ++ found.kind.describe)]
    .ok (about .grammar message source start (start + max found.lexeme.length 1) true false)

/-- The diagnostic of a text that makes no term. -/
def ofSourceError (source : String) : SourceError → Except Defect Diagnostic
  | .lexical e => ofUnreadable source e
  | .grammar e => ofReadError source e

/-! ## Errors of evaluation -/

/-- The stages of evaluation in words. -/
def stageName : Stage → String
  | .substitution => "substitution"
  | .freeVariables => "free variable check"
  | .renaming => "alpha-renaming"
  | .reduction => "reduction"

/-- The tasks of evaluation in words. -/
def taskName : Task → String
  | .expand => "expand"
  | .reduce => "reduce"

/-- The diagnostic of a broken assumption. -/
def ofViolation : Violation → Diagnostic
  | .unexpanded n stage =>
    aboutSnippet .violation "unexpanded metavariable '" n ("' reached " ++ stageName stage)
      false true
  | .notExpression s task =>
    aboutSnippet .violation ("cannot " ++ taskName task ++ " '") s "': not an Expression"
      false true
  | .namesExhausted n =>
    aboutSnippet .violation "ran out of fresh variable names (" (toString n) " in use)" false true

/-- The diagnostic of a metavariable without a value. -/
def unboundName (name : String) (location : Option Location) : Diagnostic :=
  aboutSnippet (.unbound name location) "unbound metavariable '" name "'" true false

/-- The diagnostic of a budget that did not suffice. -/
def budgetExceeded (budget : Int) : Diagnostic :=
  aboutSnippet (.overBudget budget) "no beta-normal form found within " (toString budget)
    " reduction steps" false false

/-- Points a diagnostic of an unbound name at the name in `source`, the line it stands in: at the
place where it was written, or else at its first occurrence. Other diagnostics stay. -/
def locate (source : String) (d : Diagnostic) : Diagnostic :=
  match d.cause with
  | .unbound name location =>
    let start : Int := match location with
      | some l => l.col - 1
      | none => ((Text.find name.toList source.toList).getD 0 : Nat)
    { d with subject := source, start, stop := start + name.length }
  | _ => d

end Diagnostic

end NormalOrder
