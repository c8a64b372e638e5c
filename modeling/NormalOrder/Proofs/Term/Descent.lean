import NormalOrder.Proofs.Term.Parser

/-!
# Recursive descent

The grammar can be read by routines that call one another, one for each of its symbols, each of which looks
ahead as far as it has to: for an arrow behind a name and space, and for one more operand behind space.
`Descends` has a rule for every way through a routine, and `Descent` goes from the first token to the end of
the input.

The reader does not look ahead. It keeps a name back until the next token shows what it is, and it leaves
terms open until something closes them. It comes to the same all the same, to the same term or to the same
complaint about the same token (`Descent.ofTokens_eq`). What carries the proof is that the tokens which a
routine leaves cannot go on with the row that it has read (`Stops`), so whatever is open can be closed before
them (`readAll_folded`) and a token that does not close it is refused (`readAll_refused`).
-/

namespace NormalOrder.Grammar

open Term

variable {κ : Type} {stack : List (Frame κ)} {toks rest rest' : List Token} {tok : Token} {t : Term κ}
  {k : TokenKind}

/-! ## Looking ahead -/

/-- The tokens without the space that they begin with. -/
def afterSpace (toks : List Token) : List Token := toks.dropWhile fun t => t.kind = .space

/-- The kind of the first token. -/
def headKind (toks : List Token) : Option TokenKind := toks.head?.map Token.kind

/-- A name and an arrow come first, with or without space between them. -/
def Assigns (toks : List Token) : Prop :=
  ∃ n rest, toks = n :: rest ∧ n.kind = .metavar ∧ nextKind rest = some .arrow

/-- The tokens that an operand begins with. -/
def startsPrimary (k : TokenKind) : Bool := k = .lparen || k = .var || k = .metavar

/-- The tokens that go on with a row after space: those of an operand, and the λ of a last one. -/
def goesOn (k : TokenKind) : Bool := startsPrimary k || k = .lambda

/-- Space comes first, and after it a token of the class `p`. -/
def Follows (p : TokenKind → Bool) (toks : List Token) : Prop :=
  headKind toks = some .space ∧ ∃ k, nextKind toks = some k ∧ p k = true

/-- A space token is left out. -/
theorem afterSpace_of_space (h : tok.kind = .space) : afterSpace (tok :: toks) = afterSpace toks :=
  List.dropWhile_cons_of_pos (by simpa using h)

/-- From another token on nothing is left out. -/
theorem afterSpace_of_ne (h : tok.kind ≠ .space) : afterSpace (tok :: toks) = tok :: toks :=
  List.dropWhile_cons_of_neg (by simpa using h)

/-- What is left out is a gap. -/
theorem exists_gap (toks : List Token) : ∃ g : Gap, toks = Gap.tokens g ++ afterSpace toks := by
  induction toks with
  | nil => exact ⟨[], rfl⟩
  | cons tok toks ih =>
    by_cases hk : tok.kind = .space
    · obtain ⟨g, hg⟩ := ih
      refine ⟨⟨tok, hk⟩ :: g, ?_⟩
      rw [afterSpace_of_space hk]
      exact congrArg (tok :: ·) hg
    · exact ⟨[], (afterSpace_of_ne hk).symm⟩

/-- Looking past space is looking at the first token after it. -/
theorem headKind_afterSpace (toks : List Token) : headKind (afterSpace toks) = nextKind toks := by
  induction toks with
  | nil => rfl
  | cons tok toks ih =>
    rw [nextKind]
    by_cases hk : tok.kind = .space
    · rw [if_pos hk, afterSpace_of_space hk, ih]
    · rw [if_neg hk, afterSpace_of_ne hk]
      rfl

/-- What comes next is not space. -/
theorem nextKind_ne_space (toks : List Token) : nextKind toks ≠ some .space := by
  induction toks with
  | nil => nofun
  | cons tok toks ih =>
    rw [nextKind]
    split
    · exact ih
    · next hk => exact fun h => hk (Option.some.inj h)

/-- No space comes after space. -/
theorem headKind_afterSpace_ne (toks : List Token) : headKind (afterSpace toks) ≠ some .space := by
  rw [headKind_afterSpace]
  exact nextKind_ne_space toks

/-! ## The routines -/

/-- The routines. That for the further operands of an application is its loop, which has read `f`. -/
inductive Routine (κ : Type) where
  | binding
  | abstraction
  | application
  | operands (f : Term κ)
  | primary

/-- What a routine comes to: a term and the tokens after it, or a complaint. -/
abbrev Reading (κ : Type) := Except ReadError (Term κ × List Token)

/-- Puts the term that was read into a larger one. -/
def Reading.inside (f : Term κ → Term κ) (r : Reading κ) : Reading κ := r.map fun p => (f p.1, p.2)

/-- What the routines come to. There is a rule for every way through one. -/
inductive Descends : Routine κ → List Token → Reading κ → Prop where
  -- a binding
  | assign {n a : Token} {rest rest' : List Token} {r : Reading κ} (hn : n.kind = .metavar)
    (ha : afterSpace rest = a :: rest') (hk : a.kind = .arrow)
    (h : Descends .binding (afterSpace rest') r) :
    Descends .binding (n :: rest) (r.inside (.bind n.lexeme))
  | term {toks : List Token} {r : Reading κ} (hno : ¬ Assigns toks)
    (h : Descends .abstraction toks r) : Descends .binding toks r
  -- an abstraction
  | lambda {l x d : Token} {rest : List Token} {r : Reading κ} (hl : l.kind = .lambda)
    (hx : x.kind = .var) (hd : d.kind = .dot) (h : Descends .abstraction (afterSpace rest) r) :
    Descends .abstraction (l :: x :: d :: rest) (r.inside (.lam x.lexeme))
  | noParam {l x : Token} {rest : List Token} (hl : l.kind = .lambda) (hx : x.kind ≠ .var) :
    Descends .abstraction (l :: x :: rest) (.error (.misplaced (.token .var) x))
  | noStop {l x d : Token} {rest : List Token} (hl : l.kind = .lambda) (hx : x.kind = .var)
    (hd : d.kind ≠ .dot) :
    Descends .abstraction (l :: x :: d :: rest) (.error (.misplaced (.token .dot) d))
  | noLambda {toks : List Token} {r : Reading κ} (hno : headKind toks ≠ some .lambda)
    (h : Descends .application toks r) : Descends .abstraction toks r
  -- an application
  | head {toks rest : List Token} {f : Term κ} {r : Reading κ}
    (hf : Descends .primary toks (.ok (f, rest))) (h : Descends (.operands f) rest r) :
    Descends .application toks r
  | noHead {toks : List Token} {e : ReadError} (h : Descends .primary toks (.error e)) :
    Descends .application toks (.error e)
  -- further operands
  | operand {f a : Term κ} {toks rest : List Token} {r : Reading κ} (hgo : Follows startsPrimary toks)
    (ha : Descends .primary (afterSpace toks) (.ok (a, rest)))
    (h : Descends (.operands (.app f a)) rest r) : Descends (.operands f) toks r
  | noOperand {f : Term κ} {toks : List Token} {e : ReadError} (hgo : Follows startsPrimary toks)
    (h : Descends .primary (afterSpace toks) (.error e)) : Descends (.operands f) toks (.error e)
  | last {f : Term κ} {toks : List Token} {r : Reading κ} (hgo : Follows (· = .lambda) toks)
    (h : Descends .abstraction (afterSpace toks) r) : Descends (.operands f) toks (r.inside (.app f))
  | done {f : Term κ} {toks : List Token} (hno : ¬ Follows goesOn toks) :
    Descends (.operands f) toks (.ok (f, toks))
  -- an operand
  | var {x : Token} {rest : List Token} (hx : x.kind = .var) :
    Descends .primary (x :: rest) (.ok (.var x.lexeme, rest))
  | metavar {n : Token} {rest : List Token} (hn : n.kind = .metavar) :
    Descends .primary (n :: rest) (.ok (.metavar n.lexeme (some n.location), rest))
  | parens {l c : Token} {rest rest' rest'' : List Token} {t : Term κ} (hl : l.kind = .lparen)
    (h : Descends .binding (afterSpace rest) (.ok (t, rest'))) (hc : afterSpace rest' = c :: rest'')
    (hk : c.kind = .rparen) : Descends .primary (l :: rest) (.ok (.group t, rest''))
  | noInner {l : Token} {rest : List Token} {e : ReadError} (hl : l.kind = .lparen)
    (h : Descends .binding (afterSpace rest) (.error e)) : Descends .primary (l :: rest) (.error e)
  | unclosed {l c : Token} {rest rest' rest'' : List Token} {t : Term κ} (hl : l.kind = .lparen)
    (h : Descends .binding (afterSpace rest) (.ok (t, rest'))) (hc : afterSpace rest' = c :: rest'')
    (hk : c.kind ≠ .rparen) :
    Descends .primary (l :: rest) (.error (.misplaced (.token .rparen) c))
  | noPrimary {x : Token} {rest : List Token} (hno : startsPrimary x.kind = false) :
    Descends .primary (x :: rest) (.error (.misplaced .term x))

/-- What the descent from the first token comes to. -/
inductive Descent : List Token → Except ReadError (Term κ) → Prop where
  | done {toks rest rest' : List Token} {w : Token} {t : Term κ}
    (h : Descends .binding (afterSpace toks) (.ok (t, rest))) (hw : afterSpace rest = w :: rest')
    (hk : w.kind = .eof) : Descent toks (.ok t)
  | trailing {toks rest rest' : List Token} {w : Token} {t : Term κ}
    (h : Descends .binding (afterSpace toks) (.ok (t, rest))) (hw : afterSpace rest = w :: rest')
    (hk : w.kind ≠ .eof) : Descent toks (.error (.misplaced (.token .eof) w))
  | failed {toks : List Token} {e : ReadError}
    (h : Descends (.binding : Routine κ) (afterSpace toks) (.error e)) : Descent toks (.error e)

/-! ## What is left cannot go on with the row -/

/-- The tokens cannot go on with a row, after space if `spaced`. -/
def Stops (spaced : Bool) (toks : List Token) : Prop :=
  (spaced = true ∨ headKind toks = some .space) → ∀ k, nextKind toks = some k → goesOn k = false

/-- The loop ends where no operand follows. -/
theorem stops_of_not_follows (h : ¬ Follows goesOn toks) : Stops false toks := by
  rintro (hspaced | hspace) k hk
  · cases hspaced
  · by_contra hgo
    exact h ⟨hspace, k, hk, by simpa using hgo⟩

/-- After the first space there is space before whatever follows. -/
theorem Stops.space {s : Word .space} {spaced : Bool} (h : Stops spaced (s.1 :: toks)) :
    Stops true toks := by
  intro _ k hk
  refine h (.inr ?_) k ((nextKind_space s toks).trans hk)
  rw [headKind, List.head?_cons, Option.map_some, s.2]

/-- A frame that ends before such tokens can be closed there. -/
theorem readAll_folded {frame : Frame κ} {f : Term κ → Term κ}
    (hf : ∀ t, close (frame :: stack) t = close stack (f t))
    (hcloser : closer (frame :: stack) = closer stack) {spaced : Bool} (h : Stops spaced toks)
    (t : Term κ) :
    readAll (.row t spaced) (frame :: stack) toks = readAll (.row (f t) spaced) stack toks := by
  induction toks generalizing spaced with
  | nil => rfl
  | cons tok toks ih =>
    cases hk : tok.kind with
    | space =>
      simp only [readAll, Term.read, readRow, hk]
      exact ih (h.space (s := ⟨tok, hk⟩))
    | rparen | eof => simp only [readAll, Term.read, readRow, hk, hf t]
    | dot | arrow => simp only [readAll, Term.read, readRow, hk, hcloser]
    | var | metavar | lparen | lambda =>
      cases spaced with
      | false => simp only [readAll, Term.read, readRow, hk, hcloser]
      | true =>
        have hgo := h (.inl rfl) tok.kind (by rw [nextKind, if_neg (by rw [hk]; decide)])
        rw [hk] at hgo
        cases hgo

/-- Where everything can be closed, the input has to end. -/
theorem closer_of_close_none {t' : Term κ} (h : close stack t = (t', none)) : closer stack = .eof := by
  induction stack generalizing t with
  | nil => rfl
  | cons frame stack ih =>
    cases frame with
    | body | operand | value => exact ih h
    | parens f => cases h

/-- Where a parenthesis is open, it has to be closed. -/
theorem closer_of_close_some {t' : Term κ} {p : Option (Term κ) × List (Frame κ)}
    (h : close stack t = (t', some p)) : closer stack = .rparen := by
  induction stack generalizing t with
  | nil => cases h
  | cons frame stack ih =>
    cases frame with
    | body | operand | value => exact ih h
    | parens f => rfl

/-- A token that neither goes on with a row nor closes what is open is refused. -/
theorem readRow_refused {spaced : Bool} (hspace : tok.kind ≠ .space)
    (hgo : spaced = true → goesOn tok.kind = false) (hk : tok.kind ≠ closer stack) (t : Term κ) :
    readRow stack t spaced tok = .refuse (.token (closer stack)) := by
  cases hkind : tok.kind with
  | space => exact absurd hkind hspace
  | dot | arrow => simp only [readRow, hkind]
  | rparen =>
    rw [hkind] at hk
    cases hclose : close stack t with
    | mk t' o =>
      cases o with
      | none => simp only [readRow, hkind, hclose, closer_of_close_none hclose]
      | some p => exact absurd (closer_of_close_some hclose).symm hk
  | eof =>
    rw [hkind] at hk
    cases hclose : close stack t with
    | mk t' o =>
      cases o with
      | none => exact absurd (closer_of_close_none hclose).symm hk
      | some p => simp only [readRow, hkind, hclose, closer_of_close_some hclose]
  | var | metavar | lparen | lambda =>
    cases spaced with
    | false => simp only [readRow, hkind]
    | true =>
      rw [hkind] at hgo
      cases hgo rfl

/-- The token after space that neither goes on with a row nor closes what is open is refused. -/
theorem readAll_refused {spaced : Bool} (h : Stops spaced toks) (hc : afterSpace toks = tok :: rest)
    (hk : tok.kind ≠ closer stack) (t : Term κ) :
    readAll (.row t spaced) stack toks = .error (.misplaced (.token (closer stack)) tok) := by
  induction toks generalizing spaced with
  | nil => cases hc
  | cons tok' toks ih =>
    by_cases hspace : tok'.kind = .space
    · rw [afterSpace_of_space hspace] at hc
      have hread : Term.read stack (.row t spaced) tok' = .goOn (.row t true) stack := by
        simp only [Term.read, readRow, hspace]
      rw [readAll_goOn hread]
      exact ih (h.space (s := ⟨tok', hspace⟩)) hc
    · rw [afterSpace_of_ne hspace] at hc
      obtain ⟨rfl, -⟩ := List.cons.inj hc
      have hgo : spaced = true → goesOn tok'.kind = false :=
        fun hspaced => h (.inl hspaced) tok'.kind (by rw [nextKind, if_neg hspace])
      rw [readAll, Term.read, readRow_refused hspace hgo hk]

/-! ## The reader follows the descent -/

variable {r : Reading κ} {x : Except ReadError (Term κ)} {f : Option (Term κ)} {binding : Bool}

/-- What a routine leaves, other than that for an operand, cannot go on with a row. -/
def Leaves : Reading κ → Prop
  | .ok (_, rest) => Stops false rest
  | .error _ => True

theorem Leaves.inside (h : Leaves r) (g : Term κ → Term κ) : Leaves (r.inside g) := by
  cases r with
  | ok | error => exact h

/-- `x`, what the reader comes to, is what it comes to after the term that a routine has read, as an operand
of `f` if there is one; or it is the complaint of the routine. -/
def Agrees (x : Except ReadError (Term κ)) (f : Option (Term κ)) (stack : List (Frame κ)) :
    Reading κ → Prop
  | .ok (t, rest) => x = readAll (.row (applied f t) false) stack rest
  | .error e => x = .error e

/-- A frame that ends where the term ends is closed after it. -/
theorem Agrees.fold {frame : Frame κ} {g : Term κ → Term κ}
    (hf : ∀ t, close (frame :: stack) t = close stack (g t))
    (hcloser : closer (frame :: stack) = closer stack) (hleaves : Leaves r)
    (h : Agrees x none (frame :: stack) r) : Agrees x none stack (r.inside g) := by
  cases r with
  | ok p => exact h.trans (readAll_folded hf hcloser hleaves p.1)
  | error => exact h

/-- An operand of `f` is read into the application. -/
theorem agrees_some {f : Term κ} : Agrees x (some f) stack r ↔ Agrees x none stack (r.inside (.app f)) := by
  cases r with
  | ok | error => exact Iff.rfl

/-- Space at the beginning of a term is passed over. -/
theorem readAll_start_afterSpace (binding : Bool) (stack : List (Frame κ)) (toks : List Token) :
    readAll (.start binding) stack toks = readAll (.start binding) stack (afterSpace toks) := by
  obtain ⟨g, hg⟩ := exists_gap toks
  exact (congrArg _ hg).trans (readAll_start_gap binding stack g _)

/-- Space after a row is noted. -/
theorem readAll_row_afterSpace (h : headKind toks = some .space) (t : Term κ) (stack : List (Frame κ)) :
    readAll (.row t false) stack toks = readAll (.row t true) stack (afterSpace toks) := by
  obtain ⟨g, hg⟩ := exists_gap toks
  cases g with
  | nil =>
    rw [show toks = afterSpace toks from hg] at h
    exact absurd h (headKind_afterSpace_ne toks)
  | cons s g => exact (congrArg _ hg).trans (readAll_row_space t false stack s g _)

/-- At the beginning of a term it does not begin with space, and it is no binding where one may stand. -/
structure Begins (binding : Bool) (toks : List Token) : Prop where
  solid : headKind toks ≠ some .space
  unassigned (h : binding = true) : ¬ Assigns toks

/-- Where a routine is called that reads a term or an operand: at the beginning of a term, or after a row
and space if the token belongs to the class `p`. -/
def Called (p : TokenKind → Bool) (binding : Bool) (toks : List Token) : Option (Term κ) → Prop
  | none => Begins binding toks
  | some _ => ∃ k, headKind toks = some k ∧ p k = true

/-- Wherever a routine is called, the reader comes to what the routine comes to. -/
def Simulates : Routine κ → List Token → Reading κ → Prop
  | .binding, toks, r =>
    Leaves r ∧ (headKind toks ≠ some .space →
      ∀ stack, Agrees (readAll (.start true) stack toks) none stack r)
  | .abstraction, toks, r =>
    Leaves r ∧ ∀ binding f stack, Called (· = .lambda) binding toks f →
      Agrees (readAll (place binding f) stack toks) f stack r
  | .application, toks, r =>
    Leaves r ∧ ∀ binding stack, headKind toks ≠ some .lambda → Begins binding toks →
      Agrees (readAll (.start binding) stack toks) none stack r
  | .operands f, toks, r => Leaves r ∧ ∀ stack, Agrees (readAll (.row f false) stack toks) none stack r
  | .primary, toks, r =>
    ∀ binding f stack, (f = none → headKind toks ≠ some .lambda) →
      Called startsPrimary binding toks f → Agrees (readAll (place binding f) stack toks) f stack r

/-- A name and an arrow are read, and then a binding that is the value of the name. -/
theorem simulates_assign {n a : Token} (hn : n.kind = .metavar) (ha : afterSpace rest = a :: rest')
    (hk : a.kind = .arrow) (ih : Simulates .binding (afterSpace rest') r) :
    Simulates .binding (n :: rest) (r.inside (.bind n.lexeme)) := by
  refine ⟨ih.1.inside _, fun _ stack => ?_⟩
  obtain ⟨g, hg⟩ := exists_gap rest
  rw [ha] at hg
  have hread : readAll (.start true) stack (n :: rest)
      = readAll (.start true) (.value n.lexeme :: stack) (afterSpace rest') := by
    rw [readAll_goOn (by rw [Term.read, readStart, hn, if_pos rfl]), hg,
      readAll_named_arrow _ _ _ _ g ⟨a, hk⟩, readAll_start_afterSpace]
  rw [hread]
  exact (ih.2 (headKind_afterSpace_ne rest') _).fold (fun _ => rfl) rfl ih.1

/-- Wherever an abstraction is called that begins with a λ, what comes to an agreement after the λ does so
with it. -/
theorem agrees_lambda {l : Token} (hl : l.kind = .lambda) (hleaves : Leaves r)
    (h : ∀ stack, Agrees (readAll .param stack toks) none stack r) (binding : Bool)
    (f : Option (Term κ)) (stack : List (Frame κ)) :
    Agrees (readAll (place binding f) stack (l :: toks)) f stack r := by
  cases f with
  | none =>
    rw [place, readAll_goOn (by rw [Term.read, readStart, hl])]
    exact h stack
  | some f =>
    have hread : Term.read stack (place binding (some f)) l = .goOn .param (.operand f :: stack) := by
      simp only [place, Term.read, readRow, hl]
    rw [readAll_goOn hread]
    exact agrees_some.2 ((h (.operand f :: stack)).fold (fun _ => rfl) rfl hleaves)

/-- After a λ, its parameter and the full stop the body is read. -/
theorem simulates_lambda {l x d : Token} (hl : l.kind = .lambda) (hx : x.kind = .var)
    (hd : d.kind = .dot) (ih : Simulates .abstraction (afterSpace rest) r) :
    Simulates .abstraction (l :: x :: d :: rest) (r.inside (.lam x.lexeme)) := by
  refine ⟨ih.1.inside _, fun binding f stack _ =>
    agrees_lambda hl (ih.1.inside _) (fun stack => ?_) binding f stack⟩
  obtain ⟨g, hg⟩ := exists_gap rest
  have hread : readAll .param stack (x :: d :: rest)
      = readAll (.start false) (.body x.lexeme :: stack) (afterSpace rest) :=
    (congrArg (fun toks => readAll .param stack (x :: d :: toks)) hg).trans
      (readAll_param ⟨x, hx⟩ ⟨d, hd⟩ g stack _)
  rw [hread]
  exact (ih.2 false none _ ⟨headKind_afterSpace_ne rest, nofun⟩).fold (fun _ => rfl) rfl ih.1

/-- After space an operand is called for, or a last one. -/
theorem Follows.called {p : TokenKind → Bool} (h : Follows p toks) (f : Term κ) :
    Called p binding (afterSpace toks) (some f) := by
  obtain ⟨-, k, hk, hp⟩ := h
  exact ⟨k, (headKind_afterSpace toks).trans hk, hp⟩

/-- An operand is read, and then the loop goes on with the application. -/
theorem simulates_operand {f a : Term κ} (hgo : Follows startsPrimary toks)
    (iha : Simulates .primary (afterSpace toks) (.ok (a, rest)))
    (ih : Simulates (.operands (.app f a)) rest r) : Simulates (.operands f) toks r := by
  refine ⟨ih.1, fun stack => ?_⟩
  have ha := iha false (some f) stack nofun (hgo.called f)
  rw [readAll_row_afterSpace hgo.1, show readAll (.row f true) stack (afterSpace toks) = _ from ha]
  exact ih.2 stack

/-- A last operand is read into the application. -/
theorem simulates_last {f : Term κ} (hgo : Follows (· = .lambda) toks)
    (ih : Simulates .abstraction (afterSpace toks) r) :
    Simulates (.operands f) toks (r.inside (.app f)) := by
  refine ⟨ih.1.inside _, fun stack => ?_⟩
  rw [readAll_row_afterSpace hgo.1]
  exact agrees_some.1 (ih.2 false (some f) stack (hgo.called f))

/-- A metavariable is an operand, at the beginning of a term if no arrow comes after it. -/
theorem simulates_metavar {n : Token} (hn : n.kind = .metavar) (rest : List Token) :
    Simulates .primary (n :: rest) (.ok ((.metavar n.lexeme (some n.location) : Term κ), rest)) := by
  intro binding f stack _ hcalled
  cases f with
  | none =>
    cases binding with
    | false => exact readAll_goOn (by rw [place, Term.read, readStart, hn, if_neg nofun]; rfl) rest
    | true =>
      -- The reader keeps the name back, and the token after it shows that it is no binding.
      have harrow : nextKind rest ≠ some .arrow := fun h => hcalled.unassigned rfl ⟨n, rest, rfl, hn, h⟩
      rw [place, readAll_goOn (by rw [Term.read, readStart, hn, if_pos rfl])]
      exact readAll_named _ _ _ _ harrow
  | some f => exact readAll_goOn (by simp only [place, Term.read, readRow, hn, applied]) rest

/-- Wherever an operand is called that begins with a parenthesis, the reader goes on inside. -/
theorem readAll_lparen {l : Token} (hl : l.kind = .lparen) (binding : Bool) (f : Option (Term κ))
    (stack : List (Frame κ)) (rest : List Token) :
    readAll (place binding f) stack (l :: rest)
      = readAll (.start true) (.parens f :: stack) (afterSpace rest) := by
  refine Eq.trans ?_ (readAll_start_afterSpace true _ rest)
  cases f with
  | none => exact readAll_goOn (by rw [place, Term.read, readStart, hl]) rest
  | some f => exact readAll_goOn (by simp only [place, Term.read, readRow, hl]) rest

/-- A binding is read in parentheses, and then they are closed. -/
theorem simulates_parens {l c : Token} {rest'' : List Token} {t : Term κ} (hl : l.kind = .lparen)
    (ih : Simulates .binding (afterSpace rest) (.ok (t, rest'))) (hc : afterSpace rest' = c :: rest'')
    (hk : c.kind = .rparen) : Simulates .primary (l :: rest) (.ok (.group t, rest'')) := by
  intro binding f stack _ _
  have ht := ih.2 (headKind_afterSpace_ne rest) (.parens f :: stack)
  obtain ⟨g, hg⟩ := exists_gap rest'
  rw [hc] at hg
  rw [readAll_lparen hl, show readAll (.start true) (.parens f :: stack) (afterSpace rest) = _ from ht, hg]
  exact readAll_rparen f _ false stack g ⟨c, hk⟩ rest''

/-- Parentheses that are not closed after the binding in them. -/
theorem simulates_unclosed {l c : Token} {rest'' : List Token} {t : Term κ} (hl : l.kind = .lparen)
    (ih : Simulates .binding (afterSpace rest) (.ok (t, rest'))) (hc : afterSpace rest' = c :: rest'')
    (hk : c.kind ≠ .rparen) :
    Simulates .primary (l :: rest) (.error (.misplaced (.token .rparen) c) : Reading κ) := by
  intro binding f stack _ _
  have ht := ih.2 (headKind_afterSpace_ne rest) (.parens f :: stack)
  rw [readAll_lparen hl, show readAll (.start true) (.parens f :: stack) (afterSpace rest) = _ from ht]
  exact readAll_refused ih.1 hc (show c.kind ≠ closer (.parens f :: stack) from hk) t

/-- A token that no operand begins with is refused where one has to begin. -/
theorem simulates_noPrimary {x : Token} (hno : startsPrimary x.kind = false) (rest : List Token) :
    Simulates .primary (x :: rest) (.error (.misplaced .term x) : Reading κ) := by
  intro binding f stack hlambda hcalled
  cases f with
  | none =>
    have hspace : x.kind ≠ .space := fun h => hcalled.solid (congrArg some h)
    have hlam : x.kind ≠ .lambda := fun h => hlambda rfl (congrArg some h)
    have hread : readStart stack binding x = .refuse .term := by
      rw [readStart]
      cases hk : x.kind with
      | space => exact absurd hk hspace
      | lambda => exact absurd hk hlam
      | var | metavar | lparen =>
        rw [hk] at hno
        cases hno
      | dot | rparen | arrow | eof => rfl
    show readAll (.start binding) stack (x :: rest) = _
    rw [readAll, Term.read, hread]
  | some f =>
    obtain ⟨k, hk, hp⟩ := hcalled
    cases hk
    cases hno.symm.trans hp

/-- The reader does what the routines do. -/
theorem Descends.simulates {p : Routine κ} (h : Descends p toks r) : Simulates p toks r := by
  -- On the way through the routine. Each call is made where the reader is, with what is open there.
  induction h with
  | assign hn ha hk _ ih => exact simulates_assign hn ha hk ih
  | term hno _ ih => exact ⟨ih.1, fun hspace stack => ih.2 true none stack ⟨hspace, fun _ => hno⟩⟩
  | lambda hl hx hd _ ih => exact simulates_lambda hl hx hd ih
  | @noParam l x rest hl hx =>
    refine ⟨trivial, fun binding f stack _ => agrees_lambda hl
      (r := .error (.misplaced (.token .var) x)) trivial (fun stack => ?_) binding f stack⟩
    show readAll .param stack (x :: rest) = _
    rw [readAll, Term.read, if_neg hx]
  | @noStop l x d rest hl hx hd =>
    refine ⟨trivial, fun binding f stack _ => agrees_lambda hl
      (r := .error (.misplaced (.token .dot) d)) trivial (fun stack => ?_) binding f stack⟩
    show readAll .param stack (x :: d :: rest) = _
    rw [readAll_goOn (by rw [Term.read, if_pos hx]), readAll, Term.read, if_neg hd]
  | noLambda hno _ ih =>
    refine ⟨ih.1, fun binding f stack hcalled => ?_⟩
    cases f with
    | none => exact ih.2 binding stack hno hcalled
    | some f =>
      obtain ⟨k, hk, hp⟩ := hcalled
      exact absurd (hk.trans (congrArg some (of_decide_eq_true hp))) hno
  | head _ _ ihf ih =>
    refine ⟨ih.1, fun binding stack hlambda hbegins => ?_⟩
    have hf := ihf binding none stack (fun _ => hlambda) hbegins
    rw [show readAll (.start binding) stack _ = _ from hf]
    exact ih.2 stack
  | noHead _ ih =>
    exact ⟨trivial, fun binding stack hlambda hbegins =>
      ih binding none stack (fun _ => hlambda) hbegins⟩
  | operand hgo _ _ iha ih => exact simulates_operand hgo iha ih
  | @noOperand f toks e hgo _ ih =>
    refine ⟨trivial, fun stack => ?_⟩
    rw [readAll_row_afterSpace hgo.1]
    exact ih false (some f) stack (fun hnone => by cases hnone) (hgo.called f)
  | last hgo _ ih => exact simulates_last hgo ih
  | done hno => exact ⟨stops_of_not_follows hno, fun stack => rfl⟩
  | @var x rest hx =>
    intro binding f stack _ _
    cases f with
    | none => exact readAll_goOn (by rw [place, Term.read, readStart, hx]; rfl) rest
    | some f => exact readAll_goOn (by simp only [place, Term.read, readRow, hx, applied]) rest
  | metavar hn => exact simulates_metavar hn _
  | parens hl _ hc hk ih => exact simulates_parens hl ih hc hk
  | @noInner l rest e hl _ ih =>
    intro binding f stack _ _
    rw [readAll_lparen hl]
    exact ih.2 (headKind_afterSpace_ne rest) _
  | unclosed hl _ hc hk ih => exact simulates_unclosed hl ih hc hk
  | noPrimary hno => exact simulates_noPrimary hno _

/-- What the descent comes to is what the reader comes to. -/
theorem Descent.ofTokens_eq {r : Except ReadError (Term κ)} (h : Descent toks r) :
    Term.ofTokens toks = r := by
  rw [Term.ofTokens, readAll_start_afterSpace]
  cases h with
  | @done rest rest' w t h hw hk =>
    have hread := h.simulates.2 (headKind_afterSpace_ne toks) []
    obtain ⟨g, hg⟩ := exists_gap rest
    rw [hw] at hg
    rw [show readAll (.start true) [] (afterSpace toks) = _ from hread, hg]
    exact readAll_eof t false g ⟨w, hk⟩ rest'
  | @trailing rest rest' w t h hw hk =>
    obtain ⟨hleaves, hread⟩ := h.simulates
    rw [show readAll (.start true) [] (afterSpace toks) = _ from hread (headKind_afterSpace_ne toks) []]
    have hcloser : w.kind ≠ closer ([] : List (Frame κ)) := hk
    exact readAll_refused hleaves hw hcloser t
  | failed h => exact h.simulates.2 (headKind_afterSpace_ne toks) []

end NormalOrder.Grammar
