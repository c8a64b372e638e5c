import NormalOrder.Defect
import NormalOrder.Diagnostic.Template.Layout

/-!
# Names of placeholders

The name of a placeholder begins with what tells the snippet that is meant: nothing, for the next
snippet in turn, or a number. Other names have no snippet. Steps follow that lead on from the snippet:
to a character of it by its number in brackets, or to an attribute after a dot. Where an attribute of
a text leads is not the interpreter's to say; it is a parameter (`Attributes`).
-/

namespace NormalOrder.Template

/-- A step in a name. -/
inductive Step where
  | attr (name : String)
  | index (i : Nat)
  | key (name : String)
deriving DecidableEq

/-- How something is shown. -/
structure Shown where
  /-- As it is written in a program. -/
  quoted : Except Defect (List Char)
  /-- As a text. -/
  plain : Except Defect (List Char)
  /-- As a text in a layout. -/
  inLayout : List Char → Except Defect (List Char)

/-- How a text is shown. -/
def Shown.ofText (cs : List Char) : Shown where
  quoted := .ok (Text.quoted (String.ofList cs)).toList
  plain := .ok cs
  inLayout layout := (layOut layout cs).mapError .badTemplate

/-- Where an attribute of a text leads, with the steps after it. -/
abbrev Attributes := (text : List Char) → (name : String) → List Step → Except Defect Shown

/-- No text has an attribute. -/
def Attributes.none : Attributes := fun _ name _ => .error (.noAttribute name)

/-- The number that a text writes; `none` if it writes none. -/
def number? (cs : List Char) : Except Fault (Option Nat) := do
  let (n, rest) ← splitNumber 0 cs
  return if rest.isEmpty && !cs.isEmpty then some n else none

/-- The step to an element. -/
def Step.ofBrackets (inside : List Char) : Except Fault Step := do
  match ← number? inside with
  | some i => return index i
  | none => if inside.isEmpty then .error .emptyStep else return key (String.ofList inside)

/-- The step to an attribute. -/
def Step.ofDotted (name : List Char) : Except Fault Step :=
  if name.isEmpty then .error .emptyStep else .ok (.attr (String.ofList name))

/-- Where a reader of steps is: between two steps, or inside one whose characters so far are given. -/
inductive StepPosition where
  | between
  | dotted (name : List Char)
  | brackets (inside : List Char)

/-- The steps of a name, and the fault at which reading them ended, if any. -/
abbrev Steps := List Step × Option Fault

/-- Puts a step in front, if it is one. -/
def Steps.cons (s : Except Fault Step) (ss : Steps) : Steps :=
  match s with
  | .ok s => (s :: ss.1, ss.2)
  | .error f => ([], some f)

/-- The steps that characters write from a position on. -/
def stepsFrom : StepPosition → List Char → Steps
  | .between, [] => ([], none)
  | .dotted name, [] => Steps.cons (Step.ofDotted name) ([], none)
  | .brackets _, [] => ([], some .unclosedBracket)
  | .between, c :: rest =>
    if c = '.' then stepsFrom (.dotted []) rest
    else if c = '[' then stepsFrom (.brackets []) rest
    else ([], some .afterBracket)
  | .dotted name, c :: rest =>
    if c = '.' then Steps.cons (Step.ofDotted name) (stepsFrom (.dotted []) rest)
    else if c = '[' then Steps.cons (Step.ofDotted name) (stepsFrom (.brackets []) rest)
    else stepsFrom (.dotted (name ++ [c])) rest
  | .brackets inside, c :: rest =>
    if c = ']' then Steps.cons (Step.ofBrackets inside) (stepsFrom .between rest)
    else stepsFrom (.brackets (inside ++ [c])) rest

/-- What steps lead to from a text. -/
def follow (attributes : Attributes) : List Char → List Step → Except Defect Shown
  | cs, [] => .ok (.ofText cs)
  | cs, .index i :: rest =>
    match cs[i]? with
    | some c => follow attributes [c] rest
    | none => .error .noCharacter
  | _, .key _ :: _ => .error .keyOfText
  | cs, .attr name :: rest => attributes cs name rest

/-! ## Snippets -/

/-- How the placeholders before have told their snippets. -/
inductive Numbering where
  | unset
  /-- They took `next` snippets in turn. -/
  | inTurn (next : Nat)
  /-- They gave numbers. -/
  | byNumber

/-- The number of the snippet that the beginning of a name tells. -/
def Numbering.select (numbering : Numbering) (head : List Char) :
    Except Defect (Nat × Numbering) := do
  match ← (number? head).mapError .badTemplate, numbering with
  | some _, .inTurn _ => .error (.badTemplate .numberAfterAutomatic)
  | some i, _ => .ok (i, .byNumber)
  | none, _ =>
    if !head.isEmpty then .error (.noValue (String.ofList head))
    else match numbering with
      | .unset => .ok (0, .inTurn 1)
      | .inTurn next => .ok (next, .inTurn (next + 1))
      | .byNumber => .error (.badTemplate .automaticAfterNumbers)

/-- Whether a character ends the beginning of a name. -/
def beginsStep (c : Char) : Bool := c = '.' || c = '['

/-- What the name of a placeholder leads to. -/
def lookUp (attributes : Attributes) (snippets : List (List Char)) (numbering : Numbering)
    (name : List Char) : Except Defect (Shown × Numbering) := do
  let head := name.takeWhile fun c => !beginsStep c
  let (i, numbering) ← numbering.select head
  match snippets[i]? with
  | none => .error (.noSnippet i)
  | some cs =>
    let (steps, fault) := stepsFrom .between (name.drop head.length)
    let shown ← follow attributes cs steps
    match fault with
    | some f => .error (.badTemplate f)
    | none => return (shown, numbering)

end NormalOrder.Template
