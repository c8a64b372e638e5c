import Mathlib.Data.List.Nodup
import Mathlib.Data.List.Perm.Subperm
import NormalOrder.Names

/-!
# Fresh names never run out

The candidates for a fresh name are pairwise distinct (`candidate_injective`): the letter of one
gives its number modulo 26 and the subscript the rest. So not all of one more candidate than there
are names in use can be in use, and with subscripts `fresh` always draws a name (`exists_fresh`).
Names that are drawn one after another (`draw`) are distinct and new (`draw_eq_some`).
-/

namespace NormalOrder.NameSupply

/-! ## Candidates are distinct -/

/-- The decimal digit of a subscript form. -/
def raised (c : Char) : Char := Char.ofNat (c.toNat - 0x2080 + '0'.toNat)

/-- A digit can be read off its subscript form. -/
theorem raised_lowered {c : Char} (h : c.isDigit = true) : raised (lowered c) = c := by
  have hmem : ∀ i, i < 10 → raised (lowered (Char.ofNat (48 + i))) = Char.ofNat (48 + i) := by
    decide
  obtain ⟨hlo, hhi⟩ : 48 ≤ c.toNat ∧ c.toNat ≤ 57 := Char.isDigit_iff_toNat.1 h
  have hc := hmem (c.toNat - 48) (by omega)
  rwa [show 48 + (c.toNat - 48) = c.toNat by omega, Char.ofNat_toNat] at hc

/-- A number can be read off its subscript. -/
theorem subscriptDigits_injective {m n : Nat} (h : subscriptDigits m = subscriptDigits n) :
    m = n := by
  have hraise : ∀ k, (subscriptDigits k).map raised = Nat.toDigits 10 k := by
    intro k
    have hdigit : ∀ c ∈ Nat.toDigits 10 k, (raised ∘ lowered) c = id c := by
      intro c hc
      rw [Function.comp_apply, id_eq]
      exact raised_lowered (Nat.isDigit_of_mem_toDigits (by decide) (by decide) hc)
    rw [subscriptDigits, List.map_map, List.map_congr_left hdigit, List.map_id]
  have hd : Nat.toDigits 10 m = Nat.toDigits 10 n := by rw [← hraise, h, hraise]
  rw [← Nat.ofDigitChars_ten_toDigits (n := m), hd, Nat.ofDigitChars_ten_toDigits]

/-- A letter tells its number. -/
theorem letter_injective {i j : Nat} (h : letter i = letter j) : i % 26 = j % 26 := by
  have hnum : ∀ k, k < 26 → (Char.ofNat ('a'.toNat + k)).toNat = 'a'.toNat + k := by decide
  have hi := hnum (i % 26) (Nat.mod_lt i (by decide))
  have hj := hnum (j % 26) (Nat.mod_lt j (by decide))
  have hc : (letter i).toNat = (letter j).toNat := congrArg Char.toNat h
  rw [letter, letter, hi, hj] at hc
  omega

/-- The characters of a candidate: its letter and, after `z`, its subscript. -/
theorem toList_candidate (k : Nat) :
    (candidate k).toList = letter k :: if k < 26 then [] else subscriptDigits (k / 26) := by
  rw [candidate]
  split <;> simp

/-- The candidates are distinct. -/
theorem candidate_injective {i j : Nat} (h : candidate i = candidate j) : i = j := by
  have hl := congrArg String.toList h
  rw [toList_candidate, toList_candidate] at hl
  obtain ⟨hletter, hrest⟩ := List.cons.inj hl
  have hmod := letter_injective hletter
  have hne : ∀ k, subscriptDigits k ≠ [] := by
    intro k hk
    exact Nat.toDigits_ne_nil (List.map_eq_nil_iff.1 hk)
  split at hrest
  · split at hrest
    · omega
    · exact absurd hrest.symm (hne _)
  · split at hrest
    · exact absurd hrest (hne _)
    · have hdiv := subscriptDigits_injective hrest
      omega

/-! ## The search ends -/

/-- A search that finds nothing has seen only names in use. -/
theorem contains_of_firstUnused_eq_none {used : Std.TreeSet String} {count k : Nat}
    (h : firstUnused used count k = none) :
    ∀ i, i < count → used.contains (candidate (k + i)) = true := by
  induction count generalizing k with
  | zero => exact fun i hi => absurd hi (Nat.not_lt_zero i)
  | succ count ih =>
    rw [firstUnused] at h
    split at h
    · next hk =>
      intro i hi
      rcases i with _ | i
      · exact hk
      · have := ih h i (by omega)
        rwa [show k + (i + 1) = k + 1 + i by omega]
    · cases h

/-- Among one more candidate than there are names in use, one is not in use. -/
theorem exists_firstUnused (used : Std.TreeSet String) :
    ∃ x, firstUnused used (used.size + 1) 0 = some x := by
  cases h : firstUnused used (used.size + 1) 0 with
  | some x => exact ⟨x, rfl⟩
  | none =>
    have hused := contains_of_firstUnused_eq_none h
    have hnodup : ((List.range (used.size + 1)).map candidate).Nodup :=
      List.Nodup.map (fun _ _ => candidate_injective) List.nodup_range
    have hsub : (List.range (used.size + 1)).map candidate ⊆ used.toList := by
      intro x hx
      obtain ⟨i, hi, rfl⟩ := List.mem_map.1 hx
      have hi' := hused i (List.mem_range.1 hi)
      rw [Nat.zero_add] at hi'
      exact Std.TreeSet.mem_toList.2 (Std.TreeSet.contains_iff_mem.1 hi')
    have hle := (List.subperm_of_subset hnodup hsub).length_le
    rw [List.length_map, List.length_range, Std.TreeSet.length_toList] at hle
    omega

/-- With subscripts there is always a fresh name. -/
theorem exists_fresh {s : NameSupply} (h : s.subscripts = true) :
    ∃ x, s.fresh = some (x, s.use x) := by
  obtain ⟨x, hx⟩ := exists_firstUnused s.used
  refine ⟨x, ?_⟩
  rw [fresh, reach, if_pos h, size, hx]
  rfl

/-! ## Names drawn one after another -/

/-- Draws `n` names, each from the supply that the one before left: the names in the order in which
they are drawn, and the supply after them. There are none if the supply runs out on the way. -/
def draw : Nat → NameSupply → Option (List String × NameSupply)
  | 0, s => some ([], s)
  | n + 1, s =>
    match s.fresh with
    | none => none
    | some (x, s') => (draw n s').map fun out => (x :: out.1, out.2)

/-- Names that are drawn are distinct and were not in use, and drawing them marks them and nothing
else. -/
theorem draw_eq_some {n : Nat} {s s' : NameSupply} {xs : List String}
    (h : s.draw n = some (xs, s')) :
    xs.length = n ∧ xs.Nodup ∧ (∀ x ∈ xs, s.contains x = false) ∧ s' = s.useAll xs := by
  induction n generalizing s s' xs with
  | zero =>
    cases h
    exact ⟨rfl, .nil, fun x hx => (nomatch hx), rfl⟩
  | succ n ih =>
    rw [draw] at h
    cases hf : s.fresh with
    | none =>
      rw [hf] at h
      cases h
    | some out =>
      obtain ⟨x, s₁⟩ := out
      rw [hf] at h
      obtain ⟨⟨ys, s₂⟩, hy, hout⟩ := Option.map_eq_some_iff.1 h
      cases hout
      obtain ⟨hlen, hnodup, hnew, rfl⟩ := ih hy
      obtain ⟨hx, rfl⟩ := fresh_eq_some hf
      have hold : ∀ y ∈ ys, x ≠ y ∧ s.contains y = false := by
        intro y hy
        have huse := hnew y hy
        rw [Bool.eq_false_iff, ne_eq, contains_use, not_or] at huse
        exact ⟨huse.1, Bool.eq_false_iff.2 huse.2⟩
      refine ⟨congrArg (· + 1) hlen, List.nodup_cons.2 ⟨fun hmem => (hold x hmem).1 rfl, hnodup⟩,
        ?_, rfl⟩
      rintro y (_ | ⟨_, hmem⟩)
      · exact hx
      · exact (hold y hmem).2

/-- Drawing some names and then others is drawing all of them. -/
theorem draw_add (m n : Nat) (s : NameSupply) :
    s.draw (m + n)
      = (s.draw m).bind fun out => (out.2.draw n).map fun out' => (out.1 ++ out'.1, out'.2) := by
  induction m generalizing s with
  | zero => simp [draw]
  | succ m ih =>
    rw [Nat.succ_add, draw, draw]
    cases s.fresh with
    | none => rfl
    | some out =>
      simp only [ih, Option.map_bind, Option.bind_map, Function.comp_def, Option.map_map,
        List.cons_append]

end NormalOrder.NameSupply
