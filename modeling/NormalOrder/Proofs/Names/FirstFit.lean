import NormalOrder.Proofs.Names
import NormalOrder.Proofs.Token.Lexer
import NormalOrder.Term.Substitution

/-!
# Fresh names are the first that fit

The candidates for a fresh name are the letters and then, for 1, 2 and so on, the letters with that
number as their subscript (`candidate_of_lt`, `subscript_candidate`). A supply hands out the first
candidate that is not in use (`Next`, `fresh_of_next`), and there is none exactly if subscripts are
not allowed and every letter is in use (`fresh_eq_none_iff`). So with subscripts any number of names
can be drawn, and without them as many as letters are left (`draw_eq_none_iff`). The names are spelled
as variables are, so each is read back as one (`scan_candidate`).
-/

namespace NormalOrder.NameSupply

variable {s s' : NameSupply} {x : String} {k n : Nat}

/-! ## The candidates -/

/-- The first candidates are the letters. -/
theorem candidate_of_lt (hk : k < 26) :
    candidate k = String.singleton (Char.ofNat ('a'.toNat + k)) := by
  rw [candidate, if_pos hk, letter, Nat.mod_eq_of_lt hk]

/-- The candidates after them are the letters with the subscript 1, then with 2, and so on. -/
theorem subscript_candidate (hk : k < 26) (hn : 0 < n) :
    subscript (candidate k) n = .ok (candidate (26 * n + k)) := by
  have hletter : letter (26 * n + k) = letter k := by
    rw [letter, letter, Nat.mul_add_mod]
  have hnumber : (26 * n + k) / 26 = n := by omega
  have hchars : (candidate k ++ String.ofList (subscriptDigits n)).toList
      = (candidate (26 * n + k)).toList := by
    rw [String.toList_append, String.toList_ofList, toList_candidate, toList_candidate,
      if_pos hk, if_neg (by omega), hletter, hnumber]
    rfl
  exact congrArg Except.ok (String.toList_injective hchars)

/-! ## The spelling of candidates -/

/-- The subscript form of a digit is a subscript. -/
theorem isSubscript_lowered {c : Char} (h : c.isDigit = true) :
    Token.isSubscript (lowered c) = true := by
  have hall : ∀ i, i < 10 → Token.isSubscript (lowered (Char.ofNat (48 + i))) = true := by decide
  obtain ⟨hlo, hhi⟩ : 48 ≤ c.toNat ∧ c.toNat ≤ 57 := Char.isDigit_iff_toNat.1 h
  have hc := hall (c.toNat - 48) (by omega)
  rwa [show 48 + (c.toNat - 48) = c.toNat by omega, Char.ofNat_toNat] at hc

/-- Every letter of the alphabet begins a variable. -/
theorem startsVar_letter (k : Nat) : Token.startsVar (letter k) = true := by
  have hall : ∀ i, i < 26 → Token.startsVar (Char.ofNat ('a'.toNat + i)) = true := by decide
  exact hall (k % 26) (Nat.mod_lt k (by decide))

/-- Every candidate for a fresh name is spelled as a variable. -/
theorem spelled_candidate (k : Nat) : Token.Spelled .var (candidate k).toList := by
  refine ⟨letter k, _, toList_candidate k, startsVar_letter k, fun d hd => ?_⟩
  split at hd
  · cases hd
  · obtain ⟨c, hc, rfl⟩ := List.mem_map.1 hd
    exact isSubscript_lowered (Nat.isDigit_of_mem_toDigits (by decide) (by decide) hc)

/-- A candidate by itself is scanned as one variable. -/
theorem scan_candidate (k : Nat) (here : Location) :
    ∃ there, Token.scan here (candidate k).toList
      = ⟨.ok [⟨.var, candidate k, here⟩, ⟨.eof, "", there⟩], there⟩ := by
  have hend : Token.Avoids (Token.Continuing .var) [] := by
    intro c hc
    cases hc
  have hscan := Token.scan_spelled (spelled_candidate k) (by decide) hend here
  rw [List.append_nil, String.ofList_toList, Token.scan] at hscan
  exact ⟨_, hscan⟩

/-! ## The next name -/

/-- Candidate number `k` is the next to be drawn: it may be handed out and is not in use, and all
candidates before it are. -/
structure Next (s : NameSupply) (k : Nat) : Prop where
  offered : s.subscripts = true ∨ k < 26
  unused : s.contains (candidate k) = false
  first : ∀ j, j < k → s.contains (candidate j) = true

/-- No two candidates are next. -/
theorem Next.unique {k' : Nat} (h : s.Next k) (h' : s.Next k') : k = k' := by
  have hle : ∀ {i j}, s.Next i → s.Next j → j ≤ i := by
    intro i j hi hj
    by_contra hlt
    exact Bool.false_ne_true (hi.unused.symm.trans (hj.first i (by omega)))
  exact Nat.le_antisymm (hle h' h) (hle h h')

/-- A name that is drawn is the next candidate. -/
theorem exists_next_of_fresh (h : s.fresh = some (x, s')) :
    ∃ k, s.Next k ∧ x = candidate k ∧ s' = s.use x := by
  obtain ⟨hnew, huse⟩ := fresh_eq_some h
  obtain ⟨y, hy, hx⟩ := Option.map_eq_some_iff.1 h
  cases hx
  obtain ⟨k, hk, rfl, -, hbefore⟩ := firstUnused_eq_some hy
  rw [Nat.zero_add] at hnew ⊢
  refine ⟨k, ⟨?_, hnew, fun j hj => ?_⟩, rfl, rfl⟩
  · cases hs : s.subscripts with
    | true => exact .inl rfl
    | false =>
      rw [reach, hs] at hk
      exact .inr hk
  · have hused := hbefore j hj
    rwa [Nat.zero_add] at hused

/-- A fresh name is spelled as a variable. -/
theorem spelled_of_fresh (h : s.fresh = some (x, s')) : Token.Spelled .var x.toList := by
  obtain ⟨k, -, rfl, -⟩ := exists_next_of_fresh h
  exact spelled_candidate k

/-- No name can be drawn exactly if subscripts are not allowed and every letter is in use. -/
theorem fresh_eq_none_iff :
    s.fresh = none
      ↔ s.subscripts = false ∧ ∀ k, k < 26 → s.contains (candidate k) = true := by
  constructor
  · intro h
    have hsub : s.subscripts = false := by
      rw [Bool.eq_false_iff]
      intro hs
      obtain ⟨x, hx⟩ := exists_fresh hs
      cases h.symm.trans hx
    refine ⟨hsub, fun k hk => ?_⟩
    have hnone : firstUnused s.used 26 0 = none := by
      have hsearch := Option.map_eq_none_iff.1 h
      rwa [reach, hsub] at hsearch
    have hused := contains_of_firstUnused_eq_none hnone k hk
    rwa [Nat.zero_add] at hused
  · rintro ⟨hsub, hused⟩
    cases hf : s.fresh with
    | none => rfl
    | some out =>
      obtain ⟨k, hk, -⟩ := exists_next_of_fresh hf
      rcases hk.offered with hs | hlt
      · cases hsub.symm.trans hs
      · cases hk.unused.symm.trans (hused k hlt)

/-- The next candidate is drawn. -/
theorem fresh_of_next (h : s.Next k) : s.fresh = some (candidate k, s.use (candidate k)) := by
  cases hf : s.fresh with
  | none =>
    obtain ⟨hsub, hused⟩ := fresh_eq_none_iff.1 hf
    rcases h.offered with hs | hlt
    · cases hsub.symm.trans hs
    · cases h.unused.symm.trans (hused k hlt)
  | some out =>
    obtain ⟨k', hk', hx, hs'⟩ := exists_next_of_fresh hf
    obtain rfl := h.unique hk'
    exact congrArg some (Prod.ext hx (hx ▸ hs'))

/-! ## Names drawn one after another -/

/-- How many letters are not in use. -/
def lettersLeft (s : NameSupply) : Nat :=
  (List.range 26).countP fun k => !s.contains (candidate k)

/-- A letter that is drawn is left no longer. -/
theorem lettersLeft_use (hk : k < 26) (h : s.contains (candidate k) = false) :
    s.lettersLeft = (s.use (candidate k)).lettersLeft + 1 := by
  have hperm := List.perm_cons_erase (List.mem_range.2 hk)
  have hother : ((List.range 26).erase k).countP (fun j => !s.contains (candidate j))
      = ((List.range 26).erase k).countP fun j => !(s.use (candidate k)).contains (candidate j) := by
    refine List.countP_congr fun j hj => ?_
    have hne : candidate k ≠ candidate j := fun heq =>
      (List.nodup_range.mem_erase_iff.1 hj).1 (candidate_injective heq).symm
    have hsame : (s.use (candidate k)).contains (candidate j) = s.contains (candidate j) := by
      rw [Bool.eq_iff_iff, contains_use]
      exact or_iff_right hne
    rw [hsame]
  have hself : (s.use (candidate k)).contains (candidate k) = true :=
    (contains_use s _ _).2 (.inl rfl)
  rw [lettersLeft, lettersLeft, hperm.countP_eq, hperm.countP_eq, List.countP_cons,
    List.countP_cons, hother, h, hself]
  rfl

/-- Names can be drawn unless subscripts are not allowed and fewer letters are left. -/
theorem draw_eq_none_iff : s.draw n = none ↔ s.subscripts = false ∧ s.lettersLeft < n := by
  induction n generalizing s with
  | zero => simp [draw]
  | succ n ih =>
    rw [draw]
    cases hf : s.fresh with
    | none =>
      obtain ⟨hsub, hused⟩ := fresh_eq_none_iff.1 hf
      have hleft : s.lettersLeft = 0 := by
        refine List.countP_eq_zero.2 fun k hk => ?_
        rw [hused k (List.mem_range.1 hk)]
        exact Bool.false_ne_true
      exact iff_of_true rfl ⟨hsub, by omega⟩
    | some out =>
      obtain ⟨x, s'⟩ := out
      obtain ⟨k, hk, rfl, rfl⟩ := exists_next_of_fresh hf
      have hsub : (s.use (candidate k)).subscripts = s.subscripts := rfl
      rw [Option.map_eq_none_iff, ih, hsub]
      refine and_congr_right fun hnone => ?_
      have hlt : k < 26 := hk.offered.resolve_left (by rw [hnone]; exact Bool.false_ne_true)
      have hleft := lettersLeft_use hlt hk.unused
      omega

/-- Names that are drawn are candidates. -/
theorem candidate_of_mem_draw {xs : List String} (h : s.draw n = some (xs, s')) :
    ∀ x ∈ xs, ∃ k, x = candidate k := by
  induction n generalizing s xs with
  | zero =>
    cases h
    exact List.forall_mem_nil _
  | succ n ih =>
    rw [draw] at h
    cases hf : s.fresh with
    | none =>
      rw [hf] at h
      cases h
    | some out =>
      obtain ⟨k, -, hx, -⟩ := exists_next_of_fresh hf
      rw [hf] at h
      obtain ⟨⟨ys, s₂⟩, hy, hout⟩ := Option.map_eq_some_iff.1 h
      cases hout
      exact List.forall_mem_cons.2 ⟨⟨k, hx⟩, ih hy⟩

/-- The candidates are the letters from `a` to `z`, and then, for 1, 2 and so on, the letters with that
number as their subscript. While subscripts are allowed or a letter is not in use, the name that a supply
hands out is the first candidate that is not in use, and afterwards this name is in use besides those that
were. Otherwise no name is handed out: a substitution that needs one fails, and leaves the supply as it is.
With subscripts any number of names can be drawn, and without them as many as letters are left. The names
are distinct, none of them was in use, and each by itself is scanned as one variable. -/
theorem fresh_first_fit (s : NameSupply) :
    (∀ k, k < 26 → candidate k = String.singleton (Char.ofNat ('a'.toNat + k)) ∧
      ∀ n : Nat, 0 < n → subscript (candidate k) n = .ok (candidate (26 * n + k))) ∧
    ((s.subscripts = true ∨ ∃ k, k < 26 ∧ s.contains (candidate k) = false) →
      ∃ k, s.Next k ∧ s.fresh = some (candidate k, s.use (candidate k)) ∧
        ∀ y, (s.use (candidate k)).contains y = true ↔ candidate k = y ∨ s.contains y = true) ∧
    ((s.subscripts = false ∧ ∀ k, k < 26 → s.contains (candidate k) = true) →
      s.fresh = none ∧ ∀ (x p : String) (t b : Expr), p ≠ x → b.isFree x = .ok true →
        Term.subst x t (.lam p b) s = (.error (.namesExhausted s.size), s)) ∧
    ∀ n, (s.subscripts = true ∨ n ≤ s.lettersLeft) →
      ∃ xs, s.draw n = some (xs, s.useAll xs) ∧ xs.length = n ∧ xs.Nodup ∧
        ∀ x ∈ xs, s.contains x = false ∧ ∀ here, ∃ there, Token.scan here x.toList
          = ⟨.ok [⟨.var, x, here⟩, ⟨.eof, "", there⟩], there⟩ := by
  refine ⟨fun k hk => ⟨candidate_of_lt hk, fun n hn => subscript_candidate hk hn⟩, fun h => ?_,
    fun h => ?_, fun n hn => ?_⟩
  · have hsome : s.fresh ≠ none := by
      intro hnone
      obtain ⟨hsub, hused⟩ := fresh_eq_none_iff.1 hnone
      rcases h with hs | ⟨k, hk, hunused⟩
      · cases hsub.symm.trans hs
      · cases hunused.symm.trans (hused k hk)
    obtain ⟨out, hf⟩ := Option.ne_none_iff_exists'.1 hsome
    obtain ⟨k, hk, -⟩ := exists_next_of_fresh hf
    exact ⟨k, hk, fresh_of_next hk, contains_use s (candidate k)⟩
  · have hnone := fresh_eq_none_iff.2 h
    refine ⟨hnone, fun x p t b hp hfree => ?_⟩
    rw [Term.subst, if_neg hp, hfree]
    simp only [hnone]
  · have hsome : s.draw n ≠ none := by
      intro hnone
      obtain ⟨hsub, hlt⟩ := draw_eq_none_iff.1 hnone
      rcases hn with hs | hle
      · cases hsub.symm.trans hs
      · omega
    obtain ⟨⟨xs, s'⟩, hd⟩ := Option.ne_none_iff_exists'.1 hsome
    obtain ⟨hlen, hnodup, hnew, rfl⟩ := draw_eq_some hd
    refine ⟨xs, hd, hlen, hnodup, fun x hx => ⟨hnew x hx, fun here => ?_⟩⟩
    obtain ⟨k, rfl⟩ := candidate_of_mem_draw hd x hx
    exact scan_candidate k here

/-- Where the letters and `a₁` are in use, the next name is `b₁`, and without subscripts there is none. -/
theorem fresh_first_fit_subscripted :
    ∃ s plain : NameSupply, s.subscripts = true ∧ plain.subscripts = false ∧
      (∀ k, k < 26 → s.contains (candidate k) = true ∧ plain.contains (candidate k) = true) ∧
      s.contains "a₁" = true ∧ s.fresh = some ("b₁", s.use "b₁") ∧ plain.fresh = none ∧
      ∃ xs, s.draw 3 = some (xs, s.useAll xs) ∧ xs.length = 3 ∧ xs.Nodup := by
  let letters : List String := (List.range 26).map candidate
  let s : NameSupply := (new true).useAll ("a₁" :: letters)
  let plain : NameSupply := (new false).useAll letters
  have hletters : ∀ k, k < 26 → candidate k ∈ letters := fun k hk =>
    List.mem_map_of_mem (List.mem_range.2 hk)
  have hs : ∀ k, k < 26 → s.contains (candidate k) = true := fun k hk =>
    (contains_useAll _ _ _).2 (.inl (.tail _ (hletters k hk)))
  have hplain : ∀ k, k < 26 → plain.contains (candidate k) = true := fun k hk =>
    (contains_useAll _ _ _).2 (.inl (hletters k hk))
  have ha : candidate 26 = "a₁" := by decide
  have hb : candidate 27 = "b₁" := by decide
  have hfirst : s.Next 27 := by
    refine ⟨.inl rfl, by decide +kernel, fun j hj => ?_⟩
    by_cases hlt : j < 26
    · exact hs j hlt
    · obtain rfl : j = 26 := by omega
      rw [ha]
      exact (contains_useAll _ _ _).2 (.inl (.head _))
  obtain ⟨-, hnext, -, hdraw⟩ := fresh_first_fit s
  obtain ⟨k, hk, hfresh, -⟩ := hnext (.inl rfl)
  obtain ⟨-, -, hnone, -⟩ := fresh_first_fit plain
  obtain ⟨xs, hxs, hlen, hnodup, -⟩ := hdraw 3 (.inl rfl)
  rw [hk.unique hfirst, hb] at hfresh
  exact ⟨s, plain, rfl, rfl, fun k hk => ⟨hs k hk, hplain k hk⟩,
    (contains_useAll _ _ _).2 (.inl (.head _)), hfresh, (hnone ⟨rfl, hplain⟩).1, xs, hxs, hlen, hnodup⟩

end NormalOrder.NameSupply
