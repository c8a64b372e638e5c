/-!
# Blank characters

The characters that count as blank space at the ends of a line and between its words: the
white space of Unicode together with the four information separators U+001C to U+001F.
`trim` takes blanks off both ends of a text and `words` are its maximal runs without one;
`trimBy` takes off the characters of any class.
-/

namespace NormalOrder.Text

/-- Blank characters: white space and the information separators. A zero-width space, a
zero-width no-break space and the Mongolian vowel separator are not blank. -/
def isBlank (c : Char) : Bool :=
  let n := c.toNat
  (0x09 ≤ n && n ≤ 0x0d) || (0x1c ≤ n && n ≤ 0x20) || n == 0x85 || n == 0xa0 || n == 0x1680
    || (0x2000 ≤ n && n ≤ 0x200a) || n == 0x2028 || n == 0x2029 || n == 0x202f || n == 0x205f
    || n == 0x3000

/-- Drops the characters of the class `p` on both sides of `cs`. -/
def trimBy (p : Char → Bool) (cs : List Char) : List Char :=
  ((cs.dropWhile p).reverse.dropWhile p).reverse

/-- Drops the blanks on both sides of `cs`. -/
def trim (cs : List Char) : List Char :=
  trimBy isBlank cs

/-- The words of a text whose first word has already begun with the characters `begun`. -/
def wordsFrom (begun : List Char) : List Char → List (List Char)
  | [] => if begun.isEmpty then [] else [begun]
  | c :: rest =>
    if isBlank c then
      if begun.isEmpty then wordsFrom [] rest else begun :: wordsFrom [] rest
    else wordsFrom (begun ++ [c]) rest

/-- The maximal blank-free runs of a text, in order. -/
def words (cs : List Char) : List (List Char) :=
  wordsFrom [] cs

end NormalOrder.Text
