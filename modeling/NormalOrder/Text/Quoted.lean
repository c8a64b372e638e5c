import NormalOrder.Text.Printable

/-!
# Quoted text

A text is quoted between apostrophes, or between quotation marks if it holds an apostrophe and no
quotation mark. Inside, the mark that quotes and the backslash are escaped by a backslash, line
feed, carriage return and tab by their letters, and any other unprintable character by its code
point in two, four or eight hexadecimal digits, the fewest that hold it.
-/

namespace NormalOrder.Text

/-- The last `width` hexadecimal digits of `n`. -/
def hexDigits : Nat → Nat → List Char
  | 0, _ => []
  | width + 1, n => hexDigits width (n / 16) ++ [Nat.digitChar (n % 16)]

/-- The numeric escape of a character. -/
def numericEscape (c : Char) : List Char :=
  let n := c.toNat
  if n < 0x100 then '\\' :: 'x' :: hexDigits 2 n
  else if n < 0x10000 then '\\' :: 'u' :: hexDigits 4 n
  else '\\' :: 'U' :: hexDigits 8 n

/-- A character as it stands between two marks `mark`. -/
def escaped (mark c : Char) : List Char :=
  if c = mark || c = '\\' then ['\\', c]
  else if c = '\n' then ['\\', 'n']
  else if c = '\r' then ['\\', 'r']
  else if c = '\t' then ['\\', 't']
  else if isPrintable c then [c]
  else numericEscape c

/-- Characters, of which those from the code point `limit` on stand as numeric escapes. -/
def escapedFrom (limit : Nat) (cs : List Char) : List Char :=
  cs.flatMap fun c => if c.toNat < limit then [c] else numericEscape c

/-- The mark that quotes a text. -/
def quoteMark (cs : List Char) : Char :=
  if cs.contains '\'' && !cs.contains '"' then '"' else '\''

/-- The text `s` between quoting marks. -/
def quoted (s : String) : String :=
  let mark := quoteMark s.toList
  String.ofList (mark :: (s.toList.flatMap (escaped mark) ++ [mark]))

/-- Texts quoted, one after the other, between brackets. -/
def quotedList (xs : List String) : String :=
  "[" ++ ", ".intercalate (xs.map quoted) ++ "]"

end NormalOrder.Text
