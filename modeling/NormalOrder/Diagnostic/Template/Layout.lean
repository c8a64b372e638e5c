import NormalOrder.Diagnostic.Template.Fault
import NormalOrder.Text.Numeral

/-!
# Layouts

A layout says in how wide a field a text stands, where it stands there, what the field is filled up
with, and how many characters of the text are shown at most. It is written in a notation that
numbers share, `[[fill]align][sign][z][#][0][width][grouping][.precision][form]`; what is meant for
numbers only is a fault in the layout of a text. The empty layout leaves a text as it is. There is
taken to be room for a field of any width.
-/

namespace NormalOrder.Template

/-- Where a text stands in a field that is wider. -/
inductive Alignment where
  | left
  | right
  | centre
  /-- The field is filled up after the sign of a number. -/
  | afterSign
deriving DecidableEq

/-- The alignment that a character asks for. -/
def Alignment.ofChar? : Char → Option Alignment
  | '<' => some left
  | '>' => some right
  | '^' => some centre
  | '=' => some afterSign
  | _ => none

/-- A layout. -/
structure Layout where
  fill : Char
  alignment : Alignment
  sign : Option Char
  /-- Whether the sign of a negative zero is left out. -/
  negativeZero : Bool
  /-- Whether an alternate form is asked for. -/
  alternate : Bool
  /-- The width of the field. -/
  width : Nat
  /-- How many characters are shown at most. -/
  precision : Option Nat
  /-- The form that is asked for, `'s'` for a text. -/
  form : Char

/-- The largest number that a template may hold. -/
def maxNumber : Nat := 0x7fffffffffffffff

/-- Reads digits from `n` on, as far as there are any. -/
def splitNumber (n : Nat) : List Char → Except Fault (Nat × List Char)
  | [] => .ok (n, [])
  | c :: rest =>
    match Text.digitValue? c with
    | none => .ok (n, c :: rest)
    | some d =>
      if maxNumber < 10 * n + d then .error .tooManyDigits else splitNumber (10 * n + d) rest

/-- Takes off the first character if it satisfies `p`. -/
def splitChar (p : Char → Bool) : List Char → Option Char × List Char
  | [] => (none, [])
  | c :: rest => if p c then (some c, rest) else (none, c :: rest)

/-- Takes off the alignment that a layout begins with, and the fill character before it. -/
def splitAlignment : List Char → Option Char × Option Alignment × List Char
  | c :: d :: rest =>
    match Alignment.ofChar? d, Alignment.ofChar? c with
    | some a, _ => (some c, some a, rest)
    | none, some a => (none, some a, d :: rest)
    | none, none => (none, none, c :: d :: rest)
  | [c] =>
    match Alignment.ofChar? c with
    | some a => (none, some a, [])
    | none => (none, none, [c])
  | [] => (none, none, [])

/-- Takes off a point and the precision after it. -/
def splitPrecision (cs : List Char) : Except Fault (Option Nat × List Char) :=
  match splitChar (· = '.') cs with
  | (none, _) => .ok (none, cs)
  | (some _, rest) => do
    let (n, rest') ← splitNumber 0 rest
    if rest'.length = rest.length then .error .noPrecision else .ok (some n, rest')

/-- Takes off the mark by which digits are to be grouped. -/
def splitSeparator (cs : List Char) : Except Fault (Option Char × List Char) :=
  match splitChar (· = ',') cs with
  | (some c, rest) => if rest.head? = some '_' then .error .twoSeparators else .ok (some c, rest)
  | (none, _) =>
    match splitChar (· = '_') cs with
    | (some c, rest) => if rest.head? = some ',' then .error .twoSeparators else .ok (some c, rest)
    | (none, _) => .ok (none, cs)

/-- The forms in which digits can be grouped by a mark. -/
def grouped (separator : Char) : List Char :=
  ['d', 'e', 'f', 'g', 'E', 'G', '%', 'F', '\x00'] ++ (if separator = '_' then ['b', 'o', 'x', 'X'] else [])

/-- The form at the end of a layout, after a mark by which digits are to be grouped; `whole` is the
layout. -/
def readForm (whole : List Char) (separator : Option Char) (cs : List Char) : Except Fault Char :=
  match cs with
  | _ :: _ :: _ => .error (.invalidLayout (String.ofList whole))
  | cs =>
    let form := cs.headD 's'
    match separator with
    | none => .ok form
    | some s => if (grouped s).contains form then .ok form else .error (.separated s form)

/-- The layout that is written in the given characters. -/
def Layout.ofChars (cs : List Char) : Except Fault Layout := do
  let (fill, alignment, rest) := splitAlignment cs
  let (sign, rest) := splitChar (fun c => c = ' ' || c = '+' || c = '-') rest
  let (z, rest) := splitChar (· = 'z') rest
  let (alternate, rest) := splitChar (· = '#') rest
  let (zero, rest) := if fill.isSome then (none, rest) else splitChar (· = '0') rest
  let (width, rest) ← splitNumber 0 rest
  let (separator, rest) ← splitSeparator rest
  let (precision, rest) ← splitPrecision rest
  let form ← readForm cs separator rest
  return { fill := (fill <|> zero).getD ' ', alignment := alignment.getD .left, sign,
           negativeZero := z.isSome, alternate := alternate.isSome, width, precision, form }

/-- What is wrong with a layout for a text. -/
def Layout.fault? (l : Layout) : Option Fault :=
  if l.form ≠ 's' then some (.unknownForm l.form)
  else if l.sign = some ' ' then some .spaced
  else if l.sign.isSome then some .signed
  else if l.negativeZero then some .negativeZero
  else if l.alternate then some .alternate
  else if l.alignment = .afterSign then some .paddedAfterSign
  else none

/-- A text in its field. -/
def Layout.place (l : Layout) (cs : List Char) : List Char :=
  let shown := match l.precision with
    | some n => cs.take n
    | none => cs
  let missing := l.width - shown.length
  let before := match l.alignment with
    | .left | .afterSign => 0
    | .right => missing
    | .centre => missing / 2
  List.replicate before l.fill ++ shown ++ List.replicate (missing - before) l.fill

/-- A text in the layout that the given characters write. -/
def layOut (layout text : List Char) : Except Fault (List Char) :=
  if layout.isEmpty then .ok text
  else do
    let l ← Layout.ofChars layout
    match l.fault? with
    | some f => .error f
    | none => .ok (l.place text)

end NormalOrder.Template
