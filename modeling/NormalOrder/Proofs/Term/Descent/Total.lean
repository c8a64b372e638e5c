import NormalOrder.Proofs.Term.Descent

/-!
# The descent is total

On tokens that end the recursive descent comes to a term or to a complaint, and so it comes to nothing but
what the reader comes to (`descent_iff_ofTokens`). A routine calls another one either on fewer tokens or, on
the same, one that is further down in the grammar. The lemmas follow this order: each routine is shown to
come to something when all of them do on fewer tokens (`ReturnsBelow`), with those before it at hand on the
same tokens.
-/

namespace NormalOrder.Grammar

open Term

variable {κ : Type} {toks : List Token} {tok : Token} {r : Reading κ}

/-! ## Tokens that end -/

open Token (Ended)

/-- Tokens that end have a first one. -/
theorem exists_cons_of_ended (h : Ended toks) : ∃ tok rest, toks = tok :: rest := by
  cases h with
  | eof | cons => exact ⟨_, _, rfl⟩

/-- Tokens that end do so after every one that is not the end. -/
theorem ended_tail (h : Ended (tok :: toks)) (hk : tok.kind ≠ .eof) : Ended toks := by
  cases h with
  | eof heof => exact absurd heof hk
  | cons _ h => exact h

/-- Space can be left out at the beginning. -/
theorem ended_afterSpace (h : Ended toks) : Ended (afterSpace toks) := by
  induction h with
  | @eof tok hk =>
    rw [afterSpace_of_ne (by simp [hk])]
    exact .eof hk
  | @cons tok toks hk h ih =>
    by_cases hspace : tok.kind = .space
    · rw [afterSpace_of_space hspace]
      exact ih
    · rw [afterSpace_of_ne hspace]
      exact .cons hk h

/-- Leaving out space leaves no more tokens. -/
theorem length_afterSpace_le (toks : List Token) : (afterSpace toks).length ≤ toks.length :=
  (List.dropWhile_suffix _).length_le

/-- Leaving out space that is there leaves fewer tokens. -/
theorem length_afterSpace_lt (h : headKind toks = some .space) :
    (afterSpace toks).length < toks.length := by
  cases toks with
  | nil => cases h
  | cons tok toks =>
    have hle := length_afterSpace_le toks
    rw [afterSpace_of_space (Option.some.inj h), List.length_cons]
    omega

/-! ## Routines -/

/-- What is left after a term ends, and it is fewer than `n` tokens. -/
def Within (n : Nat) : Reading κ → Prop
  | .ok (_, rest) => Ended rest ∧ rest.length < n
  | .error _ => True

theorem Within.inside {n : Nat} (h : Within n r) (g : Term κ → Term κ) : Within n (r.inside g) := by
  cases r with
  | ok | error => exact h

theorem Within.mono {m n : Nat} (h : Within m r) (hle : m ≤ n) : Within n r := by
  cases r with
  | ok p => exact ⟨h.1, Nat.lt_of_lt_of_le h.2 hle⟩
  | error => exact h

/-- The routine comes to something, and leaves fewer than `n` tokens. -/
def Returns (p : Routine κ) (toks : List Token) (n : Nat) : Prop := ∃ r, Descends p toks r ∧ Within n r

/-- Every routine comes to something on fewer tokens. The loop for operands may leave what it finds, and the
others read at least one token. -/
def ReturnsBelow (κ : Type) (n : Nat) : Prop :=
  ∀ toks, Ended toks → toks.length < n →
    Returns (.binding : Routine κ) toks toks.length ∧ Returns (.abstraction : Routine κ) toks toks.length ∧
      Returns (.primary : Routine κ) toks toks.length ∧
      ∀ f : Term κ, Returns (.operands f) toks (toks.length + 1)

section

variable (h : Ended toks) (hbelow : ReturnsBelow κ toks.length)
include h hbelow

/-- A variable or a metavariable is read by itself, and parentheses go on with fewer tokens. -/
theorem returns_primary : Returns (.primary : Routine κ) toks toks.length := by
  obtain ⟨x, rest, rfl⟩ := exists_cons_of_ended h
  by_cases hno : startsPrimary x.kind = false
  · exact ⟨_, .noPrimary hno, trivial⟩
  have hrest : Ended rest := ended_tail h fun heof => hno (by rw [heof]; rfl)
  have hlen : rest.length < (x :: rest).length := Nat.lt_succ_self _
  cases hk : x.kind with
  | var => exact ⟨_, .var hk, hrest, hlen⟩
  | metavar => exact ⟨_, .metavar hk, hrest, hlen⟩
  | lparen =>
    have hle := length_afterSpace_le rest
    obtain ⟨⟨r, hr, hwithin⟩, -⟩ := hbelow _ (ended_afterSpace hrest) (by omega)
    cases r with
    | error e => exact ⟨_, .noInner hk hr, trivial⟩
    | ok p =>
      obtain ⟨t, rest'⟩ := p
      obtain ⟨c, rest'', hc⟩ := exists_cons_of_ended (ended_afterSpace hwithin.1)
      by_cases hclose : c.kind = .rparen
      · have hended := ended_afterSpace hwithin.1
        have hlt := hwithin.2
        have hle' := length_afterSpace_le rest'
        rw [hc] at hended hle'
        rw [List.length_cons] at hle' ⊢
        exact ⟨_, .parens hk hr hc hclose, ended_tail hended (by rw [hclose]; nofun), by omega⟩
      · exact ⟨_, .unclosed hk hr hc hclose, trivial⟩
  | lambda | space | dot | rparen | arrow | eof => exact absurd (by rw [hk]; rfl) hno

/-- Space has to come before a further operand, so that fewer tokens are left for it. -/
theorem returns_operands (f : Term κ) : Returns (.operands f) toks (toks.length + 1) := by
  by_cases hgo : Follows startsPrimary toks
  · have hlt := length_afterSpace_lt hgo.1
    obtain ⟨-, -, ⟨r, hr, hwithin⟩, -⟩ := hbelow _ (ended_afterSpace h) hlt
    cases r with
    | error e => exact ⟨_, .noOperand hgo hr, trivial⟩
    | ok p =>
      obtain ⟨a, rest⟩ := p
      have hrest := hwithin.2
      obtain ⟨-, -, -, hloop⟩ := hbelow rest hwithin.1 (by omega)
      obtain ⟨r', hr', hwithin'⟩ := hloop (.app f a)
      exact ⟨_, .operand hgo hr hr', hwithin'.mono (by omega)⟩
  by_cases hlast : Follows (· = .lambda) toks
  · have hlt := length_afterSpace_lt hlast.1
    obtain ⟨-, ⟨r, hr, hwithin⟩, -⟩ := hbelow _ (ended_afterSpace h) hlt
    exact ⟨_, .last hlast hr, (hwithin.inside _).mono (by omega)⟩
  · refine ⟨_, .done ?_, h, Nat.lt_succ_self _⟩
    rintro ⟨hspace, k, hk, hp⟩
    rcases Bool.or_eq_true_iff.1 hp with hp | hp
    · exact hgo ⟨hspace, k, hk, hp⟩
    · exact hlast ⟨hspace, k, hk, hp⟩

/-- After the first operand, which has at least one token, the loop goes on. -/
theorem returns_application : Returns (.application : Routine κ) toks toks.length := by
  obtain ⟨r, hr, hwithin⟩ := returns_primary h hbelow
  cases r with
  | error e => exact ⟨_, .noHead hr, trivial⟩
  | ok p =>
    obtain ⟨f, rest⟩ := p
    obtain ⟨-, -, -, hloop⟩ := hbelow rest hwithin.1 hwithin.2
    obtain ⟨r', hr', hwithin'⟩ := hloop f
    exact ⟨_, .head hr hr', hwithin'.mono hwithin.2⟩

/-- The body of an abstraction comes after its first three tokens. -/
theorem returns_abstraction : Returns (.abstraction : Routine κ) toks toks.length := by
  by_cases hlambda : headKind toks = some .lambda
  · obtain ⟨l, rest, rfl⟩ := exists_cons_of_ended h
    have hl : l.kind = .lambda := Option.some.inj hlambda
    have hparam := ended_tail h (by rw [hl]; nofun)
    obtain ⟨x, rest₁, rfl⟩ := exists_cons_of_ended hparam
    by_cases hx : x.kind = .var
    · have hstop := ended_tail hparam (by rw [hx]; nofun)
      obtain ⟨d, rest₂, rfl⟩ := exists_cons_of_ended hstop
      by_cases hd : d.kind = .dot
      · have hle := length_afterSpace_le rest₂
        simp only [List.length_cons] at hbelow ⊢
        obtain ⟨-, ⟨r, hr, hwithin⟩, -⟩ :=
          hbelow _ (ended_afterSpace (ended_tail hstop (by rw [hd]; nofun))) (by omega)
        exact ⟨_, .lambda hl hx hd hr, (hwithin.inside _).mono (by omega)⟩
      · exact ⟨_, .noStop hl hx hd, trivial⟩
    · exact ⟨_, .noParam hl hx, trivial⟩
  · obtain ⟨r, hr, hwithin⟩ := returns_application h hbelow
    exact ⟨_, .noLambda hlambda hr, hwithin⟩

/-- The value of a binding comes after its name and its arrow. -/
theorem returns_binding : Returns (.binding : Routine κ) toks toks.length := by
  by_cases hassigns : Assigns toks
  · obtain ⟨n, rest, rfl, hn, harrow⟩ := hassigns
    have hrest := ended_afterSpace (ended_tail h (by rw [hn]; nofun))
    obtain ⟨a, rest', ha⟩ := exists_cons_of_ended hrest
    have hk : a.kind = .arrow := by
      rw [← headKind_afterSpace, ha] at harrow
      exact Option.some.inj harrow
    have hle := length_afterSpace_le rest
    have hle' := length_afterSpace_le rest'
    rw [ha] at hrest hle
    simp only [List.length_cons] at hbelow hle ⊢
    obtain ⟨⟨r, hr, hwithin⟩, -⟩ :=
      hbelow _ (ended_afterSpace (ended_tail hrest (by rw [hk]; nofun))) (by omega)
    exact ⟨_, .assign hn ha hk hr, (hwithin.inside _).mono (by omega)⟩
  · obtain ⟨r, hr, hwithin⟩ := returns_abstraction h hbelow
    exact ⟨_, .term hassigns hr, hwithin⟩

end

/-- Every routine comes to something on tokens that end. -/
theorem returnsBelow (κ : Type) (n : Nat) : ReturnsBelow κ n := by
  induction n with
  | zero => exact fun toks _ hlt => absurd hlt (Nat.not_lt_zero _)
  | succ n ih =>
    intro toks h hlt
    have hbelow : ReturnsBelow κ toks.length := fun toks' h' hlt' => ih toks' h' (by omega)
    exact ⟨returns_binding h hbelow, returns_abstraction h hbelow, returns_primary h hbelow,
      returns_operands h hbelow⟩

/-! ## The descent -/

/-- The descent comes to something on tokens that end. -/
theorem exists_descent (h : Ended toks) : ∃ r : Except ReadError (Term κ), Descent toks r := by
  have hrest := ended_afterSpace h
  obtain ⟨⟨r, hr, hwithin⟩, -⟩ := returnsBelow κ _ _ hrest (Nat.lt_succ_self _)
  cases r with
  | error e => exact ⟨_, .failed hr⟩
  | ok p =>
    obtain ⟨t, rest⟩ := p
    obtain ⟨w, rest', hw⟩ := exists_cons_of_ended (ended_afterSpace hwithin.1)
    by_cases hk : w.kind = .eof
    · exact ⟨_, .done hr hw hk⟩
    · exact ⟨_, .trailing hr hw hk⟩

/-- On tokens that end, the descent comes to what they are read as, and to nothing else. -/
theorem descent_iff_ofTokens {r : Except ReadError (Term κ)} (h : Ended toks) :
    Descent toks r ↔ Term.ofTokens toks = r := by
  refine ⟨Descent.ofTokens_eq, fun hr => ?_⟩
  obtain ⟨r', hr'⟩ := exists_descent (κ := κ) h
  rwa [← hr, hr'.ofTokens_eq]

end NormalOrder.Grammar
