import Mathlib.Data.List.TakeWhile
import NormalOrder.Token.Lexer

/-!
# What scanning gives

`Spelled` says which texts the tokens of a kind stand for. Every token of a scan is spelled as its
kind is, and the last of them, and no other, is for the end of the input (`tokens_of_scan`). The tokens
make up the text, apart from line feeds and carriage returns (`lexemes_of_scan`). The other way around,
a text spelled as a token is read as this token where what comes after does not go on with it
(`scan_spelled`).
-/

namespace NormalOrder.Token

variable {c : Char} {cs more rest rest' : List Char} {k : TokenKind} {toks : List Token} {t : Token}
  {here : Location}

/-! ## Spellings -/

/-- The texts that tokens of a kind stand for. -/
def Spelled : TokenKind → List Char → Prop
  | .lambda, cs => cs = ['\\'] ∨ cs = ['λ']
  | .var, cs =>
    ∃ c more, cs = c :: more ∧ startsVar c = true ∧ ∀ d ∈ more, isSubscript d = true
  | .space, cs => ∃ c more, cs = c :: more ∧ isSpace c = true ∧ ∀ d ∈ more, isSpace d = true
  | .dot, cs => cs = ['.']
  | .lparen, cs => cs = ['(']
  | .rparen, cs => cs = [')']
  | .metavar, cs =>
    ∃ c more, cs = c :: more ∧ startsMetavar c = true ∧ ∀ d ∈ more, continuesMetavar d = true
  | .arrow, cs => cs = ['<', '-']
  | .eof, cs => cs = []

/-- Characters that would go on with a token of a kind. -/
def Continuing : TokenKind → Char → Bool
  | .var => isSubscript
  | .space => isSpace
  | .metavar => continuesMetavar
  | .lambda | .dot | .lparen | .rparen | .arrow | .eof => fun _ => false

/-- A text that does not begin with a character of a kind. -/
def Avoids (p : Char → Bool) (cs : List Char) : Prop := ∀ c ∈ cs.head?, p c = false

/-- No token but the one for the end of the input is empty. -/
theorem eof_of_spelled_nil (h : Spelled k []) : k = .eof := by
  cases k with
  | eof => rfl
  | lambda => simp [Spelled] at h
  | dot | lparen | rparen | arrow => cases h
  | var | space | metavar =>
    obtain ⟨_, _, h, -⟩ := h
    cases h

/-- A token that is one character long is spelled so. -/
theorem spelled_of_single? (h : single? c = some k) : Spelled k [c] := by
  unfold single? at h
  split at h
  · next hc =>
    cases h
    exact congrArg (fun c => [c]) hc
  · split at h
    · next hc =>
      cases h
      exact congrArg (fun c => [c]) hc
    · split at h
      · next hc =>
        cases h
        exact congrArg (fun c => [c]) hc
      · split at h
        · next hc =>
          cases h
          simpa [Spelled] using hc
        · cases h

/-- The characters that a lexeme is made of spell its kind. -/
theorem spelled_of_lexeme? (h : lexeme? c rest = some (k, more, rest')) :
    Spelled k (c :: more) := by
  unfold lexeme? at h
  split at h
  · next hk =>
    cases h
    exact spelled_of_single? hk
  · split at h
    · next hc =>
      cases h
      exact ⟨c, _, rfl, hc, fun d hd => List.mem_takeWhile_imp hd⟩
    · split at h
      · next hc =>
        split at h
        · cases h
          exact congrArg (fun c => [c, '-']) hc
        · cases h
      · split at h
        · next hc =>
          cases h
          exact ⟨c, _, rfl, hc, fun d hd => List.mem_takeWhile_imp hd⟩
        · split at h
          · next hc =>
            cases h
            exact ⟨c, _, rfl, hc, fun d hd => List.mem_takeWhile_imp hd⟩
          · cases h

/-- A run of characters of a kind ends where the next character is not of the kind. -/
theorem takeWhile_append_avoids {p : Char → Bool} (hmore : ∀ d ∈ more, p d = true)
    (hrest : Avoids p rest) :
    (more ++ rest).takeWhile p = more ∧ (more ++ rest).dropWhile p = rest := by
  rw [List.takeWhile_append_of_pos hmore, List.dropWhile_append_of_pos hmore]
  cases rest with
  | nil => exact ⟨List.append_nil more, rfl⟩
  | cons c rest =>
    have hc : p c = false := hrest c rfl
    simp [hc]

/-- The characters that tokens begin with which are no names. -/
def marks : List Char := ['(', ')', '.', '\\', 'λ', ' ', '\t', '<']

/-- A character of a kind that has no marks is not looked at as one. -/
theorem not_mark {p : Char → Bool} (hp : marks.any p = false) (hc : p c = true) :
    single? c = none ∧ isSpace c = false ∧ c ≠ '<' := by
  have hmarks : c ∉ marks := fun h => List.any_eq_false.1 hp c h hc
  simp only [marks, List.mem_cons, List.not_mem_nil, or_false, not_or] at hmarks
  obtain ⟨hl, hr, hdot, hback, hlam, hblank, htab, hlt⟩ := hmarks
  exact ⟨by simp [single?, hl, hr, hdot, hback, hlam], by simp [isSpace, hblank, htab], hlt⟩

/-- What begins a variable is not looked at as a mark. -/
theorem not_mark_var (hc : startsVar c = true) :
    single? c = none ∧ isSpace c = false ∧ c ≠ '<' :=
  not_mark (p := startsVar) rfl hc

/-- What begins a metavariable is not looked at as a mark. -/
theorem not_mark_metavar (hc : startsMetavar c = true) :
    single? c = none ∧ isSpace c = false ∧ c ≠ '<' :=
  not_mark (p := startsMetavar) rfl hc

/-- No character begins a variable and a metavariable. -/
theorem startsVar_of_startsMetavar (h : startsMetavar c = true) : startsVar c = false := by
  rw [Bool.eq_false_iff]
  intro hvar
  obtain ⟨ha, -⟩ := Bool.and_eq_true_iff.1 hvar
  rcases Bool.or_eq_true_iff.1 h with hc | hc
  · rw [eq_of_beq hc] at ha
    exact absurd (of_decide_eq_true ha) (by decide)
  · obtain ⟨-, hz⟩ := Bool.and_eq_true_iff.1 hc
    exact absurd (Char.le_trans (of_decide_eq_true ha) (of_decide_eq_true hz)) (by decide)

/-- A text spelled as a token is read as one, up to where the text after it begins. -/
theorem lexeme?_of_spelled (h : Spelled k (c :: more)) (hrest : Avoids (Continuing k) rest) :
    lexeme? c (more ++ rest) = some (k, more, rest) := by
  cases k with
  | lambda =>
    rcases h with h | h
    · cases h
      rfl
    · cases h
      rfl
  | dot | lparen | rparen | arrow =>
    cases h
    rfl
  | eof => cases h
  | space =>
    obtain ⟨c, more, h, hc, hmore⟩ := h
    cases h
    obtain ⟨htake, hdrop⟩ := takeWhile_append_avoids hmore hrest
    have hsingle : single? c = none := by
      rcases Bool.or_eq_true_iff.1 hc with hc | hc
      · rw [eq_of_beq hc]
        rfl
      · rw [eq_of_beq hc]
        rfl
    unfold lexeme?
    simp only [hsingle, hc, if_true, htake, hdrop]
  | var =>
    obtain ⟨c, more, h, hc, hmore⟩ := h
    cases h
    obtain ⟨htake, hdrop⟩ := takeWhile_append_avoids hmore hrest
    obtain ⟨hsingle, hspace, hlt⟩ := not_mark_var hc
    unfold lexeme?
    simp only [hsingle, hspace, hlt, hc, if_true, if_false, htake, hdrop, Bool.false_eq_true]
  | metavar =>
    obtain ⟨c, more, h, hc, hmore⟩ := h
    cases h
    obtain ⟨htake, hdrop⟩ := takeWhile_append_avoids hmore hrest
    obtain ⟨hsingle, hspace, hlt⟩ := not_mark_metavar hc
    have hvar : startsVar c = false := startsVar_of_startsMetavar hc
    unfold lexeme?
    simp only [hsingle, hspace, hlt, hvar, hc, if_true, if_false, htake, hdrop,
      Bool.false_eq_true]

/-! ## Scans -/

/-- The last token of the list, and no other, is one for the end of the input. -/
inductive Ended : List Token → Prop where
  | eof {t : Token} (ht : t.kind = .eof) : Ended [t]
  | cons {t : Token} {toks : List Token} (ht : t.kind ≠ .eof) (h : Ended toks) : Ended (t :: toks)

/-- Nothing comes after the token for the end of the input. -/
theorem Ended.eq_nil {before : List Token} (h : Ended (before ++ t :: toks)) (ht : t.kind = .eof) :
    toks = [] := by
  induction before with
  | nil =>
    cases h with
    | eof => rfl
    | cons hne => exact absurd ht hne
  | cons t' before ih =>
    cases before with
    | nil =>
      cases h with
      | cons _ h => exact ih h
    | cons t'' before =>
      cases h with
      | cons _ h => exact ih h

/-- The tokens of a text end with one for the end of the input, and each is spelled as its kind
is. -/
theorem tokens_of_scan (h : (scan here cs).outcome = .ok toks) :
    Ended toks ∧ ∀ t ∈ toks, Spelled t.kind t.lexeme.toList := by
  fun_induction scan here cs generalizing toks with
  | case1 here =>
    cases h
    exact ⟨.eof rfl, by simp [Spelled]⟩
  | case2 here rest ih | case3 here rest hn ih => exact ih h
  | case4 => cases h
  | case5 here c rest hn hr kind more rest' hlex ih =>
    have hspelled := spelled_of_lexeme? hlex
    cases hs : (scan { here with col := here.col + (more.length + 1) } rest').outcome with
    | error e =>
      rw [consScan, hs] at h
      cases h
    | ok toks' =>
      rw [consScan, hs] at h
      cases h
      obtain ⟨hended, hall⟩ := ih hs
      refine ⟨.cons ?_ hended, List.forall_mem_cons.2 ⟨?_, hall⟩⟩
      · rintro rfl
        cases hspelled
      · rwa [String.toList_ofList]

/-- A text spelled as a token is scanned as one, up to where the text after it begins. -/
theorem scan_spelled (h : Spelled k cs) (hk : k ≠ .eof) (hrest : Avoids (Continuing k) rest)
    (here : Location) :
    scan here (cs ++ rest)
      = consScan ⟨k, String.ofList cs, here⟩
          (scan { here with col := here.col + cs.length } rest) := by
  obtain ⟨c, more, rfl⟩ : ∃ c more, cs = c :: more := by
    cases cs with
    | cons c more => exact ⟨c, more, rfl⟩
    | nil => exact absurd (eof_of_spelled_nil h) hk
  have hlex := lexeme?_of_spelled h hrest
  have hnewline : c ≠ '\n' := by
    rintro rfl
    cases hlex
  have hreturn : c ≠ '\r' := by
    rintro rfl
    cases hlex
  rw [List.cons_append, scan, if_neg hnewline, if_neg hreturn]
  split
  · next hnone =>
    rw [hlex] at hnone
    cases hnone
  · next hsome =>
    rw [hlex] at hsome
    cases hsome
    rfl

/-! ## The characters of tokens -/

/-- Characters that the tokens of a kind are made of. -/
def charOf : TokenKind → Char → Bool
  | .lambda, c => c == '\\' || c == 'λ'
  | .var, c => startsVar c || isSubscript c
  | .space, c => isSpace c
  | .dot, c => c == '.'
  | .lparen, c => c == '('
  | .rparen, c => c == ')'
  | .metavar, c => startsMetavar c || continuesMetavar c
  | .arrow, c => c == '<' || c == '-'
  | .eof, _ => false

/-- A token is made of characters for tokens of its kind. -/
theorem charOf_of_spelled (h : Spelled k cs) : ∀ c ∈ cs, charOf k c = true := by
  have hclass : ∀ {p q : Char → Bool}, (∃ c more, cs = c :: more ∧ p c = true ∧
      ∀ d ∈ more, q d = true) → ∀ c ∈ cs, (p c || q c) = true := by
    rintro p q ⟨c, more, rfl, hc, hmore⟩
    exact List.forall_mem_cons.2 ⟨by rw [hc, Bool.true_or],
      fun d hd => by rw [hmore d hd, Bool.or_true]⟩
  cases k with
  | lambda =>
    rcases h with rfl | rfl
    · exact List.forall_mem_singleton.2 rfl
    · exact List.forall_mem_singleton.2 rfl
  | dot | lparen | rparen =>
    cases h
    exact List.forall_mem_singleton.2 rfl
  | arrow =>
    cases h
    exact List.forall_mem_cons.2 ⟨rfl, List.forall_mem_singleton.2 rfl⟩
  | eof =>
    cases h
    exact fun c hc => nomatch hc
  | var | metavar => exact hclass h
  | space =>
    intro c hc
    have hor := hclass h c hc
    rwa [Bool.or_self] at hor

/-- Characters that tokens are made of. -/
def inAlphabet (c : Char) : Bool := TokenKind.all.any fun k => charOf k c

/-- A token is made of characters of the alphabet. -/
theorem inAlphabet_of_spelled (h : Spelled k cs) : ∀ c ∈ cs, inAlphabet c = true := by
  intro c hc
  have hk : k ∈ TokenKind.all := by cases k <;> decide
  exact List.any_eq_true.2 ⟨k, hk, charOf_of_spelled h c hc⟩

/-- The text that tokens make up. -/
def lexemes (toks : List Token) : List Char := toks.flatMap fun t => t.lexeme.toList

/-- Whether a character belongs to no line ending. -/
def inLine (c : Char) : Bool := c != '\n' && c != '\r'

/-- No character of a token ends a line. -/
theorem inLine_of_spelled (h : Spelled k cs) : ∀ c ∈ cs, inLine c = true := by
  intro c hc
  have halpha := inAlphabet_of_spelled h c hc
  have hnewline : c ≠ '\n' := by
    rintro rfl
    cases halpha
  have hreturn : c ≠ '\r' := by
    rintro rfl
    cases halpha
  simp [inLine, hnewline, hreturn]

/-- The tokens of a text make it up, apart from the line endings in it. -/
theorem lexemes_of_scan (h : (scan here cs).outcome = .ok toks) :
    lexemes toks = cs.filter inLine := by
  fun_induction scan here cs generalizing toks with
  | case1 here =>
    cases h
    rfl
  | case2 here rest ih | case3 here rest hn ih =>
    rw [ih h]
    rfl
  | case4 => cases h
  | case5 here c rest hn hr kind more rest' hlex ih =>
    have hline := inLine_of_spelled (spelled_of_lexeme? hlex)
    cases hs : (scan { here with col := here.col + (more.length + 1) } rest').outcome with
    | error e =>
      rw [consScan, hs] at h
      cases h
    | ok toks' =>
      rw [consScan, hs] at h
      cases h
      rw [← append_of_lexeme? hlex, ← List.cons_append, List.filter_append,
        List.filter_eq_self.2 hline, ← ih hs, lexemes, List.flatMap_cons, String.toList_ofList]
      rfl

end NormalOrder.Token
