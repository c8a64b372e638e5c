import NormalOrder.Proofs.Term.Parser

/-!
# Texts that are read

What can be said of a text from the fact alone that it is read as a term. Its tokens make it up, apart
from line feeds and carriage returns (`lexemes_of_scan`), so it has only the characters of tokens
(`inAlphabet_of_parse`). It has as many opening parentheses as closing ones, since its derivation has
(`count_paren_of_parse`). And where a word begins, no two small letters come one after the other: they
would be two variables, and after a variable the reader does not take one more before there is space
(`not_letters_of_parse`). In the middle of a name such letters may well come.
-/

namespace NormalOrder

namespace Token

variable {c d : Char} {cs : List Char} {k : TokenKind} {toks : List Token} {here : Location}

/-! ## Parentheses -/

/-- The parenthesis that opens, or the one that closes. -/
def paren (opening : Bool) : Char := if opening then '(' else ')'

/-- The kind of the tokens for a parenthesis. -/
def parenKind (opening : Bool) : TokenKind := if opening then .lparen else .rparen

/-- How many tokens are parentheses that open, or that close. -/
def parens (opening : Bool) (toks : List Token) : Nat :=
  toks.countP fun t => t.kind = parenKind opening

/-- A token has a parenthesis in its text if it is one. -/
theorem count_paren_of_spelled (opening : Bool) (h : Spelled k cs) :
    cs.count (paren opening) = if k = parenKind opening then 1 else 0 := by
  split
  · next hk =>
    subst hk
    have hcs : cs = [paren opening] := by cases opening <;> exact h
    rw [hcs, List.count_singleton_self]
  · next hk =>
    refine List.count_eq_zero.2 fun hmem => ?_
    have hchar := charOf_of_spelled h _ hmem
    cases opening with
    | true => cases k <;> first | exact hk rfl | cases hchar
    | false => cases k <;> first | exact hk rfl | cases hchar

/-- The parentheses of a text are the tokens for them. -/
theorem count_paren_lexemes (opening : Bool)
    (h : ∀ t ∈ toks, Spelled t.kind t.lexeme.toList) :
    (lexemes toks).count (paren opening) = parens opening toks := by
  induction toks with
  | nil => rfl
  | cons t toks ih =>
    obtain ⟨ht, htoks⟩ := List.forall_mem_cons.1 h
    rw [lexemes, List.flatMap_cons, List.count_append, count_paren_of_spelled opening ht,
      parens, List.countP_cons, ← parens, ← ih htoks, lexemes]
    simp only [decide_eq_true_eq]
    omega

/-! ## Letters -/

/-- No token has a small letter after a blank in it. -/
theorem startsVar_of_spelled_blank {xs ys : List Char} (h : Spelled k (xs ++ ' ' :: c :: ys)) :
    startsVar c = false := by
  have hchar := charOf_of_spelled h
  have hblank : charOf k ' ' = true := hchar ' ' (by simp)
  have hc : charOf k c = true := hchar c (by simp)
  obtain rfl : k = .space := by cases k <;> first | rfl | cases hblank
  rw [Bool.eq_false_iff]
  intro hvar
  cases (not_mark_var hvar).2.1.symm.trans hc

/-- A token that begins with a small letter is a variable, with subscripts after the letter. -/
theorem var_of_spelled (h : Spelled k (c :: cs)) (hc : startsVar c = true) :
    k = .var ∧ ∀ d ∈ cs, isSubscript d = true := by
  have hchar : charOf k c = true := charOf_of_spelled h c (.head _)
  cases k with
  | var =>
    obtain ⟨e, more, heq, -, hmore⟩ := h
    cases heq
    exact ⟨rfl, hmore⟩
  | metavar =>
    obtain ⟨e, more, heq, he, -⟩ := h
    cases heq
    cases hc.symm.trans (startsVar_of_startsMetavar he)
  | space => cases (not_mark_var hc).2.1.symm.trans hchar
  | dot | lparen | rparen =>
    rw [eq_of_beq hchar] at hc
    cases hc
  | lambda | arrow =>
    rcases Bool.or_eq_true_iff.1 hchar with he | he
    · rw [eq_of_beq he] at hc
      cases hc
    · rw [eq_of_beq he] at hc
      cases hc
  | eof => cases hchar

/-- No subscript is a small letter. -/
theorem startsVar_of_isSubscript (h : isSubscript c = true) : startsVar c = false := by
  rw [Bool.eq_false_iff]
  intro hc
  obtain ⟨-, hz⟩ := Bool.and_eq_true_iff.1 hc
  obtain ⟨hlo, -⟩ := Bool.and_eq_true_iff.1 h
  have hz' : c.toNat ≤ 122 := of_decide_eq_true hz
  have hlo' : 0x2080 ≤ c.toNat := of_decide_eq_true hlo
  omega

/-- The places of a text where a word can begin: its beginning, and those after a blank. What stands
before such a place is given. -/
def WordBegins (before : List Char) : Prop := before = [] ∨ ∃ xs, before = xs ++ [' ']

/-- Where a word can begin in a text, one can begin in every end of the text that reaches so far. -/
theorem WordBegins.of_append {xs ys : List Char} (h : WordBegins (xs ++ ys)) : WordBegins ys := by
  rcases List.eq_nil_or_concat ys with rfl | ⟨zs, e, rfl⟩
  · exact .inl rfl
  · rcases h with h | ⟨ws, h⟩
    · simp at h
    · rw [List.concat_eq_append, ← List.append_assoc] at h
      obtain ⟨-, he⟩ := List.append_inj' h rfl
      cases he
      exact .inr ⟨zs, List.concat_eq_append⟩

/-- A text that begins with a small letter begins with a variable. -/
theorem exists_var (hended : Ended toks) (h : ∀ t ∈ toks, Spelled t.kind t.lexeme.toList)
    (heq : lexemes toks = c :: cs) (hc : startsVar c = true) :
    ∃ t rest, toks = t :: rest ∧ t.kind = .var := by
  have hfirst : ∀ {t : Token} {more : List Char}, t.lexeme.toList = c :: more →
      Spelled t.kind t.lexeme.toList → t.kind = .var := by
    intro t more hlex ht
    rw [hlex] at ht
    exact (var_of_spelled ht hc).1
  cases hended with
  | @eof t ht =>
    rw [lexemes, List.flatMap_singleton] at heq
    exact ⟨t, [], rfl, hfirst heq (h t (.head _))⟩
  | @cons t rest hne _ =>
    have ht := h t (.head _)
    cases hlex : t.lexeme.toList with
    | nil =>
      rw [hlex] at ht
      exact absurd (eof_of_spelled_nil ht) hne
    | cons e more =>
      rw [lexemes, List.flatMap_cons, hlex] at heq
      obtain ⟨rfl, -⟩ := List.cons.inj heq
      exact ⟨t, rest, rfl, hfirst hlex ht⟩

/-- Two small letters one after the other, where a word can begin, are two variables one after the
other. -/
theorem exists_vars (hended : Ended toks) (h : ∀ t ∈ toks, Spelled t.kind t.lexeme.toList)
    {before after : List Char} (hbefore : WordBegins before)
    (heq : lexemes toks = before ++ c :: d :: after) (hc : startsVar c = true)
    (hd : startsVar d = true) :
    ∃ (toks₁ : List Token) (s t : Token) (toks₂ : List Token),
      toks = toks₁ ++ s :: t :: toks₂ ∧ s.kind = .var ∧ t.kind = .var := by
  induction hended generalizing before with
  | @eof t ht =>
    have hspelled := h t (.head _)
    rw [ht] at hspelled
    have hnil : t.lexeme.toList = [] := hspelled
    rw [lexemes, List.flatMap_singleton, hnil] at heq
    simp at heq
  | @cons t toks hne hended ih =>
    obtain ⟨ht, htoks⟩ := List.forall_mem_cons.1 h
    have hlater : ∀ before', WordBegins before' → lexemes toks = before' ++ c :: d :: after →
        ∃ (toks₁ : List Token) (s u : Token) (toks₂ : List Token),
          t :: toks = toks₁ ++ s :: u :: toks₂ ∧ s.kind = .var ∧ u.kind = .var := by
      intro before' hbefore' heq'
      obtain ⟨toks₁, s, u, toks₂, rfl, hs, hu⟩ := ih htoks hbefore' heq'
      exact ⟨t :: toks₁, s, u, toks₂, rfl, hs, hu⟩
    have heq' : t.lexeme.toList ++ lexemes toks = before ++ c :: d :: after := heq
    rcases List.append_eq_append_iff.1 heq' with ⟨before', rfl, hrest⟩ | ⟨cs, hlex, hrest⟩
    · exact hlater before' hbefore.of_append hrest
    · cases cs with
      | nil => exact hlater [] (.inl rfl) hrest.symm
      | cons e cs =>
        obtain ⟨rfl, htail⟩ := List.cons.inj hrest
        rw [hlex] at ht
        rcases hbefore with rfl | ⟨xs, rfl⟩
        · obtain ⟨hk, hsub⟩ := var_of_spelled ht hc
          cases cs with
          | nil =>
            obtain ⟨u, rest, rfl, hu⟩ := exists_var hended htoks htail.symm hd
            exact ⟨[], t, u, rest, rfl, hk, hu⟩
          | cons e cs =>
            obtain ⟨rfl, -⟩ := List.cons.inj htail
            cases (startsVar_of_isSubscript (hsub d (.head _))).symm.trans hd
        · rw [List.append_assoc, List.singleton_append] at ht
          cases (startsVar_of_spelled_blank ht).symm.trans hc

end Token

namespace Grammar

open Term

variable {κ : Type} {toks : List Token} {k : TokenKind}

/-! ## Derivations -/

open Token in
/-- The parentheses of two lists of tokens one after the other. -/
theorem parens_append (opening : Bool) (toks toks' : List Token) :
    parens opening (toks ++ toks') = parens opening toks + parens opening toks' :=
  List.countP_append

open Token in
/-- The parentheses of a list of tokens that begins with a token of a kind. -/
theorem parens_cons (opening : Bool) (w : Word k) (toks : List Token) :
    parens opening (w.1 :: toks)
      = parens opening toks + if k = parenKind opening then 1 else 0 := by
  rw [parens, List.countP_cons, w.2]
  simp only [decide_eq_true_eq]
  rfl

open Token in
/-- There is no parenthesis in a gap. -/
theorem parens_gap (opening : Bool) (g : Gap) : parens opening (Gap.tokens g) = 0 := by
  induction g with
  | nil => rfl
  | cons s g ih =>
    rw [Gap.tokens, List.map_cons, parens_cons, ← Gap.tokens, ih]
    cases opening <;> rfl

open Token in
mutual

/-- As many parentheses open as close in a binding. -/
theorem Binding.balanced : (d : Binding) → parens true d.tokens = parens false d.tokens
  | .assign n g a g' v => by
    have hv := Binding.balanced v
    simp only [Binding.tokens, parens_cons, parens_append, parens_gap, parenKind]
    simpa using hv
  | .term t => Abstraction.balanced t

/-- As many parentheses open as close in an abstraction. -/
theorem Abstraction.balanced : (d : Abstraction) → parens true d.tokens = parens false d.tokens
  | .lambda l => Lambda.balanced l
  | .application a => Application.balanced a

/-- As many parentheses open as close in an abstraction that begins with a λ. -/
theorem Lambda.balanced : (d : Lambda) → parens true d.tokens = parens false d.tokens
  | .mk l x p g b => by
    have hb := Abstraction.balanced b
    simp only [Lambda.tokens, parens_cons, parens_append, parens_gap, parenKind]
    simpa using hb

/-- As many parentheses open as close in an application. -/
theorem Application.balanced : (d : Application) → parens true d.tokens = parens false d.tokens
  | .mk t ops => by
    rw [Application.tokens, parens_append, parens_append, Primary.balanced t,
      Operands.balanced ops]

/-- As many parentheses open as close in the further operands of an application. -/
theorem Operands.balanced : (d : Operands) → parens true d.tokens = parens false d.tokens
  | .done => rfl
  | .operand s g t ops => by
    have ht := Primary.balanced t
    have hops := Operands.balanced ops
    simp only [Operands.tokens, parens_cons, parens_append, parens_gap, parenKind, ht, hops]
    simp
  | .last s g l => by
    have hl := Lambda.balanced l
    simp only [Operands.tokens, parens_cons, parens_append, parens_gap, parenKind, hl]
    simp

/-- As many parentheses open as close in an operand. -/
theorem Primary.balanced : (d : Primary) → parens true d.tokens = parens false d.tokens
  | .parens l g b g' r => by
    have hb := Binding.balanced b
    have hr : ∀ opening, parens opening [r.1] = if TokenKind.rparen = parenKind opening then 1 else 0 :=
      fun opening => (parens_cons opening r []).trans (Nat.zero_add _)
    simp only [Primary.tokens, parens_cons, parens_append, parens_gap, parenKind, hb, hr]
    simp
  | .var x | .metavar x => by
    rw [Primary.tokens, parens_cons, parens_cons]
    rfl

end

/-! ## Two variables one after the other -/

variable {mode mode' : Mode κ} {stack stack' : List (Frame κ)} {s t : Token} {e : Term κ}

/-- The reader is done only at the end of the input. -/
theorem eof_of_done (h : Term.read stack mode t = .done e) : t.kind = .eof := by
  have hrow : ∀ {u : Term κ} {spaced : Bool}, readRow stack u spaced t = .done e →
      t.kind = .eof := by
    intro u spaced h
    unfold readRow at h
    split at h <;> try cases h
    · split at h <;> cases h
    · next hk => exact hk
  cases mode with
  | start binding =>
    simp only [Term.read, readStart] at h
    split at h <;> try cases h
    split at h <;> cases h
  | param | stop =>
    rw [Term.read] at h
    split at h <;> cases h
  | named n l spaced =>
    simp only [Term.read] at h
    split at h
    · cases h
    · cases h
    · exact hrow h
  | row u spaced => exact hrow h

/-- After a variable the reader does not go on with a variable. -/
theorem read_var_var (hs : s.kind = .var) (ht : t.kind = .var)
    (h : Term.read stack mode s = .goOn mode' stack') :
    ∃ expected, Term.read stack' mode' t = .refuse expected := by
  have hrow : ∀ (u : Term κ), ∃ expected, Term.read stack' (.row u false) t = .refuse expected := by
    intro u
    simp only [Term.read, readRow, ht]
    exact ⟨_, rfl⟩
  have hstop : ∀ p : String, ∃ expected,
      Term.read stack' (.stop p : Mode κ) t = .refuse expected := by
    intro p
    simp only [Term.read, ht]
    exact ⟨_, rfl⟩
  cases mode with
  | start binding =>
    simp only [Term.read, readStart, hs] at h
    cases h
    exact hrow _
  | param =>
    simp only [Term.read, hs] at h
    cases h
    exact hstop _
  | stop p => simp [Term.read, hs] at h
  | named n l spaced =>
    simp only [Term.read, readRow, hs] at h
    cases spaced with
    | true =>
      cases h
      exact hrow _
    | false => cases h
  | row u spaced =>
    simp only [Term.read, readRow, hs] at h
    cases spaced with
    | true =>
      cases h
      exact hrow _
    | false => cases h

/-- Tokens with two variables one after the other are not read as a term. -/
theorem readAll_vars (hs : s.kind = .var) (ht : t.kind = .var) {toks₁ toks₂ : List Token}
    (hended : Token.Ended (toks₁ ++ s :: t :: toks₂)) :
    readAll mode stack (toks₁ ++ s :: t :: toks₂) ≠ .ok e := by
  induction toks₁ generalizing mode stack with
  | nil =>
    intro h
    rw [List.nil_append, readAll] at h
    split at h
    · next hread =>
      obtain ⟨expected, hrefuse⟩ := read_var_var hs ht hread
      rw [readAll, hrefuse] at h
      cases h
    · next hread => cases hs.symm.trans (eof_of_done hread)
    · cases h
  | cons u toks₁ ih =>
    intro h
    rw [List.cons_append] at hended
    rw [List.cons_append, readAll] at h
    split at h
    · refine ih ?_ h
      generalize htail : toks₁ ++ s :: t :: toks₂ = tail at hended
      cases hended with
      | eof => simp at htail
      | cons _ hended => exact hended
    · next hread =>
      have hended' : Token.Ended ([] ++ u :: (toks₁ ++ s :: t :: toks₂)) := hended
      have hnil := hended'.eq_nil (eof_of_done hread)
      simp at hnil
    · cases h

/-! ## Texts -/

variable {source : String}

/-- The tokens of a text that is read. -/
theorem exists_tokens_of_parse (h : Term.parse source = .ok e) :
    ∃ toks, Token.Ended toks ∧ (∀ t ∈ toks, Token.Spelled t.kind t.lexeme.toList) ∧
      Token.lexemes toks = source.toList.filter Token.inLine ∧ Term.ofTokens toks = .ok e := by
  obtain ⟨toks, hscan, hread⟩ := exists_scan_of_parse h
  obtain ⟨hended, hspelled⟩ := Token.tokens_of_scan hscan
  exact ⟨toks, hended, hspelled, Token.lexemes_of_scan hscan, hread⟩

/-- A text that is read has no characters but those of tokens, apart from line endings. -/
theorem inAlphabet_of_parse (h : Term.parse source = .ok e) :
    ∀ c ∈ source.toList, Token.inLine c = true → Token.inAlphabet c = true := by
  obtain ⟨toks, -, hspelled, hlex, -⟩ := exists_tokens_of_parse h
  intro c hc hline
  have hmem : c ∈ Token.lexemes toks := by
    rw [hlex]
    exact List.mem_filter.2 ⟨hc, hline⟩
  obtain ⟨t, ht, hct⟩ := List.mem_flatMap.1 hmem
  exact Token.inAlphabet_of_spelled (hspelled t ht) c hct

/-- A text that is read has as many opening parentheses as closing ones. -/
theorem count_paren_of_parse (h : Term.parse source = .ok e) :
    source.toList.count '(' = source.toList.count ')' := by
  obtain ⟨toks, hended, hspelled, hlex, hread⟩ := exists_tokens_of_parse h
  have hcount : ∀ opening, source.toList.count (Token.paren opening)
      = Token.parens opening toks := by
    intro opening
    have hline : Token.inLine (Token.paren opening) = true := by cases opening <;> rfl
    rw [← Token.count_paren_lexemes opening hspelled, hlex, List.count_filter hline]
  obtain ⟨d, rfl, -⟩ := exists_program_of_ofTokens hended hread
  have heof : ∀ opening, Token.parens opening [d.eof.1] = 0 := by
    intro opening
    refine (parens_cons opening d.eof []).trans ?_
    cases opening <;> rfl
  have hbalanced : Token.parens true d.tokens = Token.parens false d.tokens := by
    simp only [Program.tokens, parens_append, parens_gap, heof, d.binding.balanced]
  exact (hcount true).trans (hbalanced.trans (hcount false).symm)

/-- Where a word can begin in a text that is read, no two small letters come one after the other. -/
theorem not_letters_of_parse (h : Term.parse source = .ok e) {before after : List Char} {c d : Char}
    (heq : source.toList = before ++ c :: d :: after) (hbefore : Token.WordBegins before)
    (hc : Token.startsVar c = true) : Token.startsVar d = false := by
  obtain ⟨toks, hended, hspelled, hlex, hread⟩ := exists_tokens_of_parse h
  have hline : ∀ {c : Char}, Token.startsVar c = true → Token.inLine c = true := by
    intro c hc
    have hne : ∀ e, Token.startsVar e = false → c ≠ e := by
      rintro _ he rfl
      cases he.symm.trans hc
    simp [Token.inLine, hne '\n' rfl, hne '\r' rfl]
  have hbefore' : Token.WordBegins (before.filter Token.inLine) := by
    rcases hbefore with rfl | ⟨xs, rfl⟩
    · exact .inl rfl
    · exact .inr ⟨xs.filter Token.inLine, List.filter_append ..⟩
  rw [Bool.eq_false_iff]
  intro hd
  rw [heq, List.filter_append, List.filter_cons_of_pos (hline hc),
    List.filter_cons_of_pos (hline hd)] at hlex
  obtain ⟨toks₁, s, t, toks₂, rfl, hs, ht⟩ :=
    Token.exists_vars hended hspelled hbefore' hlex hc hd
  exact readAll_vars hs ht hended hread

end Grammar

end NormalOrder
