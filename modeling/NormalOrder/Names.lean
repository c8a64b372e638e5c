import Std.Data.TreeSet
import NormalOrder.Defect

/-!
# Fresh names

A supply of variable names: the set of names in use and the rule by which the next unused one is
chosen. The candidates come in a fixed order, the letters `a` to `z` and then, where subscripts
are allowed, the letters again with the subscripts 1, 2 and so on; `fresh` takes the first that is
not in use and marks it. Among one more candidate than there are names in use one is free, so
with subscripts the search always succeeds.
-/

namespace NormalOrder

/-- Names in use, and whether subscripted letters may be handed out. -/
structure NameSupply where
  /-- Whether the supply goes on with subscripted letters after `z`. -/
  subscripts : Bool
  /-- The names in use. -/
  used : Std.TreeSet String

namespace NameSupply

/-- The subscript form of a decimal digit. -/
def lowered (digit : Char) : Char := Char.ofNat (digit.toNat - '0'.toNat + 0x2080)

/-- The decimal digits of `n`, as subscripts. -/
def subscriptDigits (n : Nat) : List Char := (Nat.toDigits 10 n).map lowered

/-- The text `base` with the number `n` as its subscript. A minus sign has no subscript form. -/
def subscript (base : String) : Int → Except Defect String
  | .ofNat n => .ok (base ++ String.ofList (subscriptDigits n))
  | .negSucc _ => .error (.notDigit '-')

/-- The letter with number `k`, counted round the alphabet from `a`. -/
def letter (k : Nat) : Char := Char.ofNat ('a'.toNat + k % 26)

/-- Candidate number `k` for a fresh name: the alphabet bare, then with the subscript 1, 2, … -/
def candidate (k : Nat) : String :=
  if k < 26 then String.singleton (letter k)
  else String.ofList (letter k :: subscriptDigits (k / 26))

/-- The first of the `count` candidates from number `k` on that is not in use. -/
def firstUnused (used : Std.TreeSet String) : (count k : Nat) → Option String
  | 0, _ => none
  | count + 1, k =>
    if used.contains (candidate k) then firstUnused used count (k + 1) else some (candidate k)

/-- The supply with no name in use. -/
def new (subscripts : Bool) : NameSupply := ⟨subscripts, ∅⟩

/-- Forgets which names are in use. -/
def reset (s : NameSupply) : NameSupply := { s with used := ∅ }

/-- Marks `x` as in use. -/
def use (s : NameSupply) (x : String) : NameSupply := { s with used := s.used.insert x }

/-- Marks every name of a list as in use. -/
def useAll (s : NameSupply) (xs : List String) : NameSupply := xs.foldl use s

/-- Whether `x` is in use. -/
def contains (s : NameSupply) (x : String) : Bool := s.used.contains x

/-- How many names are in use. -/
def size (s : NameSupply) : Nat := s.used.size

/-- The names in use, in order of their characters' code points. -/
def toList (s : NameSupply) : List String := s.used.toList

/-- How many candidates a search has to look at. -/
def reach (s : NameSupply) : Nat := if s.subscripts then s.size + 1 else 26

/-- The first candidate that is not in use, and the supply with it in use. There is none if
subscripts are not allowed and every letter is in use. -/
def fresh (s : NameSupply) : Option (String × NameSupply) :=
  (firstUnused s.used s.reach 0).map fun x => (x, s.use x)

/-- The names in use after one more is marked. -/
theorem contains_use (s : NameSupply) (x y : String) :
    (s.use x).contains y = true ↔ x = y ∨ s.contains y = true := by
  simp [use, contains, Std.TreeSet.contains_insert]

/-- The names in use after those of a list are marked. -/
theorem contains_useAll (s : NameSupply) (xs : List String) (y : String) :
    (s.useAll xs).contains y = true ↔ y ∈ xs ∨ s.contains y = true := by
  induction xs generalizing s with
  | nil => simp [useAll]
  | cons x xs ih =>
    have h : s.useAll (x :: xs) = (s.use x).useAll xs := rfl
    rw [h, ih, contains_use, List.mem_cons]
    constructor
    · rintro (hy | rfl | hy)
      · exact .inl (.inr hy)
      · exact .inl (.inl rfl)
      · exact .inr hy
    · rintro ((rfl | hy) | hy)
      · exact .inr (.inl rfl)
      · exact .inl hy
      · exact .inr (.inr hy)

/-- What a search finds is not in use, and every candidate before it is. -/
theorem firstUnused_eq_some {used : Std.TreeSet String} {count k : Nat} {x : String}
    (h : firstUnused used count k = some x) :
    ∃ i, i < count ∧ x = candidate (k + i) ∧ used.contains x = false
      ∧ ∀ j, j < i → used.contains (candidate (k + j)) = true := by
  induction count generalizing k with
  | zero => cases h
  | succ count ih =>
    rw [firstUnused] at h
    split at h
    · rename_i hk
      obtain ⟨i, hi, hx, hfree, hused⟩ := ih h
      refine ⟨i + 1, by omega, by rw [hx]; congr 1; omega, hfree, fun j hj => ?_⟩
      rcases j with _ | j
      · exact hk
      · have := hused j (by omega)
        rwa [show k + (j + 1) = k + 1 + j by omega]
    · rename_i hk
      cases h
      exact ⟨0, by omega, rfl, Bool.eq_false_iff.2 hk, fun j hj => absurd hj (by omega)⟩

/-- A fresh name was not in use, and drawing it marks it and nothing else. -/
theorem fresh_eq_some {s s' : NameSupply} {x : String} (h : s.fresh = some (x, s')) :
    s.contains x = false ∧ s' = s.use x := by
  simp only [fresh, Option.map_eq_some_iff, Prod.mk.injEq] at h
  obtain ⟨y, hy, rfl, rfl⟩ := h
  obtain ⟨i, _, rfl, hfree, _⟩ := firstUnused_eq_some hy
  exact ⟨hfree, rfl⟩

/-- The names in use, as shown to a reader. -/
def shown (s : NameSupply) : String := "NameSupply(" ++ Text.quotedList s.toList ++ ")"

end NameSupply

end NormalOrder
