/-!
# Positions and stretches of a text

Positions count characters from zero. A negative position counts from the end of the text, and
one that lies outside is moved to the nearest end, so that every pair of positions names a
stretch (`slice`), which is empty when the second does not lie after the first. `find` gives the
first place at which one text occurs in another.
-/

namespace NormalOrder.Text

/-- The place that position `i` stands for in a text of `size` characters. -/
def place (size : Nat) (i : Int) : Nat :=
  if i < 0 then (size + i).toNat else min i.toNat size

/-- The characters of `s` from position `i` up to position `j`. -/
def slice (s : String) (i j : Int) : String :=
  let cs := s.toList
  String.ofList ((cs.take (place cs.length j)).drop (place cs.length i))

/-- The characters of `s` before position `i`. -/
def before (s : String) (i : Int) : String :=
  slice s 0 i

/-- The characters of `s` from position `i` on. -/
def after (s : String) (i : Int) : String :=
  slice s i s.length

/-- `n` times the character `c`; nothing if `n` is negative. -/
def repeated (n : Int) (c : Char) : String :=
  String.ofList (List.replicate n.toNat c)

/-- The first place at which `part` occurs in a text. -/
def find (part : List Char) : List Char → Option Nat
  | [] => if part.isEmpty then some 0 else none
  | c :: rest => if part.isPrefixOf (c :: rest) then some 0 else (find part rest).map (· + 1)

/-- The characters before the first occurrence of `part`; all of them if there is none. -/
def upTo (part : List Char) (cs : List Char) : List Char :=
  match find part cs with
  | some i => cs.take i
  | none => cs

end NormalOrder.Text
