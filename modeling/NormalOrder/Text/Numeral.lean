import NormalOrder.Text.Blank

/-!
# Reading whole numbers

A whole number is written as a row of decimal digits with a sign before it or none. Single
underscores may stand between digits and white space around the whole. The digits may be those of
any script that writes decimal numbers, and there are at most `maxDigits` of them.
-/

namespace NormalOrder.Text

/-- The zeros of the decimal scripts of Unicode 14; the other nine digits of each script follow
its zero in order. -/
def decimalZeros : List Nat :=
  [0x30, 0x660, 0x6f0, 0x7c0, 0x966, 0x9e6, 0xa66, 0xae6, 0xb66, 0xbe6, 0xc66, 0xce6, 0xd66,
    0xde6, 0xe50, 0xed0, 0xf20, 0x1040, 0x1090, 0x17e0, 0x1810, 0x1946, 0x19d0, 0x1a80, 0x1a90,
    0x1b50, 0x1bb0, 0x1c40, 0x1c50, 0xa620, 0xa8d0, 0xa900, 0xa9d0, 0xa9f0, 0xaa50, 0xabf0,
    0xff10, 0x104a0, 0x10d30, 0x11066, 0x110f0, 0x11136, 0x111d0, 0x112f0, 0x11450, 0x114d0,
    0x11650, 0x116c0, 0x11730, 0x118e0, 0x11950, 0x11c50, 0x11d50, 0x11da0, 0x16a60, 0x16ac0,
    0x16b50, 0x1d7ce, 0x1d7d8, 0x1d7e2, 0x1d7ec, 0x1d7f6, 0x1e140, 0x1e2f0, 0x1e950, 0x1fbf0]

/-- The value of a decimal digit. -/
def digitValue? (c : Char) : Option Nat :=
  (decimalZeros.find? fun z => z ≤ c.toNat && c.toNat ≤ z + 9).map fun z => c.toNat - z

/-- Reads digits from `n` on, where `inside` tells that a digit came just before. -/
def readDigits (n : Nat) : (inside : Bool) → List Char → Option Nat
  | inside, [] => if inside then some n else none
  | inside, c :: rest =>
    match digitValue? c with
    | some d => readDigits (10 * n + d) true rest
    | none => if c = '_' && inside then readDigits n false rest else none

/-- Blanks that may stand around a number: all but the four information separators. -/
def isNumberBlank (c : Char) : Bool :=
  isBlank c && !(0x1c ≤ c.toNat && c.toNat ≤ 0x1f)

/-- How many digits a number may have, zeros at its beginning among them. -/
def maxDigits : Nat := 4300

/-- How many characters of a text are digits. -/
def countDigits (cs : List Char) : Nat := cs.countP fun c => (digitValue? c).isSome

/-- The natural number that a row of digits writes. -/
def readNat? (cs : List Char) : Option Nat :=
  if countDigits cs ≤ maxDigits then readDigits 0 false cs else none

/-- The whole number that a text writes. -/
def readInt? (s : String) : Option Int :=
  match trimBy isNumberBlank s.toList with
  | '-' :: rest => (readNat? rest).map fun n => -(n : Int)
  | '+' :: rest => (readNat? rest).map fun n => (n : Int)
  | cs => (readNat? cs).map fun n => (n : Int)

end NormalOrder.Text
