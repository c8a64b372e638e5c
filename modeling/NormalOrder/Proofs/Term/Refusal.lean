import NormalOrder.Proofs.Term.Descent.Total

/-!
# The token that is blamed

Tokens that make no term are refused at the first of them that cannot stand where it does
(`parse_blames_first`): the tokens before it are the beginning of tokens that are read as a term
(`Viable`), and with it they are not. The recursive descent looks ahead past space before it decides, but it
complains about the same token.

The reader goes over the tokens one by one and does not come back, so what it makes of a beginning is the
place that it has reached (`exists_refused`). Every place, whatever is open there, can be completed:
`exists_completion` reads a variable where a term is missing and closes what is open.
-/

namespace NormalOrder.Grammar

open Term

variable {κ : Type} {stack : List (Frame κ)} {mode : Mode κ} {e : Term κ} {toks : List Token}
  {expected : Expected} {found : Token}

/-- The tokens are the beginning of tokens that are read as an expression. -/
def Viable (toks : List Token) : Prop := ∃ more, ∃ e : Expr, Term.ofTokens (toks ++ more) = .ok e

/-! ## Completions -/

/-- Tokens of every kind, to complete others with. -/
def sample (k : TokenKind) : Word k := ⟨⟨k, "", Token.origin⟩, rfl⟩

/-- After a row everything that is open can be closed. -/
theorem exists_closing (stack : List (Frame κ)) (t : Term κ) (spaced : Bool) :
    ∃ more e, Closes more ∧ readAll (.row t spaced) stack more = .ok e := by
  induction stack generalizing t spaced with
  | nil => exact ⟨_, t, closes_eof (sample .eof) [], readAll_eof t spaced [] (sample .eof) []⟩
  | cons frame stack ih =>
    cases frame with
    | body p =>
      obtain ⟨more, e, hc, hread⟩ := ih (.lam p t) spaced
      exact ⟨more, e, hc, (readAll_closed (fun _ => rfl) hc t spaced spaced).trans hread⟩
    | operand f =>
      obtain ⟨more, e, hc, hread⟩ := ih (.app f t) spaced
      exact ⟨more, e, hc, (readAll_closed (fun _ => rfl) hc t spaced spaced).trans hread⟩
    | value n =>
      obtain ⟨more, e, hc, hread⟩ := ih (.bind n t) spaced
      exact ⟨more, e, hc, (readAll_closed (fun _ => rfl) hc t spaced spaced).trans hread⟩
    | parens f =>
      obtain ⟨more, e, -, hread⟩ := ih (applied f (.group t)) false
      exact ⟨_, e, closes_rparen (sample .rparen) more,
        (readAll_rparen f t spaced stack [] (sample .rparen) more).trans hread⟩

/-- At the beginning of a term a variable can be read, and then everything that is open can be closed. -/
theorem exists_start (binding : Bool) (stack : List (Frame κ)) :
    ∃ more e, readAll (.start binding) stack ((sample .var).1 :: more) = .ok e := by
  obtain ⟨more, e, -, hread⟩ := exists_closing stack (.var (sample .var).1.lexeme) false
  exact ⟨more, e, hread⟩

/-- Every place that the reader can come to can be completed. -/
theorem exists_completion (mode : Mode κ) (stack : List (Frame κ)) :
    ∃ more e, readAll mode stack more = .ok e := by
  cases mode with
  | start binding =>
    obtain ⟨more, e, hread⟩ := exists_start binding stack
    exact ⟨_, e, hread⟩
  | param =>
    obtain ⟨more, e, hread⟩ := exists_start false (.body (sample .var).1.lexeme :: stack)
    exact ⟨(sample .var).1 :: (sample .dot).1 :: (sample .var).1 :: more, e, hread⟩
  | stop p =>
    obtain ⟨more, e, hread⟩ := exists_start false (.body p :: stack)
    exact ⟨(sample .dot).1 :: (sample .var).1 :: more, e, hread⟩
  | named n l spaced =>
    obtain ⟨more, e, hc, hread⟩ := exists_closing stack (.metavar n (some l)) spaced
    have harrow : nextKind more ≠ some .arrow := by
      rcases hc with hc | hc
      · rw [hc]
        nofun
      · rw [hc]
        nofun
    exact ⟨more, e, (readAll_named n l spaced stack harrow).trans hread⟩
  | row t spaced =>
    obtain ⟨more, e, -, hread⟩ := exists_closing stack t spaced
    exact ⟨more, e, hread⟩

/-! ## Refusals -/

/-- The reader comes to a place at which it refuses the token that it blames, and what it makes of the
tokens before is that place. -/
theorem exists_refused (h : readAll mode stack toks = .error (.misplaced expected found)) :
    ∃ past future mode' stack', toks = past ++ found :: future ∧
      (∀ more, readAll mode stack (past ++ more) = readAll mode' stack' more) ∧
      Term.read stack' mode' found = .refuse expected := by
  induction toks generalizing mode stack with
  | nil => cases h
  | cons tok toks ih =>
    rw [readAll] at h
    split at h
    · next mode₁ stack₁ hread =>
      obtain ⟨past, future, mode', stack', rfl, hpast, hrefuse⟩ := ih h
      exact ⟨tok :: past, future, mode', stack', rfl,
        fun more => (readAll_goOn hread (past ++ more)).trans (hpast more), hrefuse⟩
    · cases h
    · next hread =>
      cases h
      exact ⟨[], toks, mode, stack, rfl, fun _ => rfl, hread⟩

/-- A text that is cut into tokens but makes no term is refused at one of its tokens, and the recursive descent
complains about the same one. It is the first that cannot stand where it does: the tokens before it are the
beginning of tokens that are read as a term, and there are none that begin also with it. -/
theorem parse_blames_first {source : String} {err : ReadError}
    (h : (Term.parse source : Except SourceError Expr) = .error (.grammar err)) :
    ∃ expected found past future, err = .misplaced expected found ∧
      (Token.scan Token.origin source.toList).outcome = .ok (past ++ found :: future) ∧
      Descent (past ++ found :: future) (.error err : Except ReadError Expr) ∧
      Viable past ∧ ¬ Viable (past ++ [found]) := by
  rcases error_of_parse h with ⟨u, hlexical, -⟩ | ⟨toks, expected, found, herr, hscan, -, hread⟩
  · cases hlexical
  · cases herr
    obtain ⟨hended, -⟩ := Token.tokens_of_scan hscan
    have hdescent := (descent_iff_ofTokens hended).2 hread
    obtain ⟨past, future, mode, stack, rfl, hpast, hrefuse⟩ := exists_refused hread
    refine ⟨expected, found, past, future, rfl, hscan, hdescent, ?_, ?_⟩
    · obtain ⟨more, e, hread⟩ := exists_completion mode stack
      exact ⟨more, e, (hpast more).trans hread⟩
    · rintro ⟨more, e, hread⟩
      rw [Term.ofTokens, List.append_assoc, List.singleton_append, hpast, readAll, hrefuse] at hread
      cases hread

/-- A full stop after space in parentheses is blamed, where they could have been closed. -/
theorem parse_blames_first_dot :
    ∃ past dot future, dot = ⟨.dot, ".", ⟨1, 6⟩⟩ ∧
      (Token.scan Token.origin "x (y .z".toList).outcome = .ok (past ++ dot :: future) ∧
      Descent (past ++ dot :: future)
        (.error (.misplaced (.token .rparen) dot) : Except ReadError Expr) ∧
      Viable past ∧ ¬ Viable (past ++ [dot]) := by
  have hparse : (Term.parse "x (y .z" : Except SourceError Expr)
      = .error (.grammar (.misplaced (.token .rparen) ⟨.dot, ".", ⟨1, 6⟩⟩)) := by cbv
  obtain ⟨_, _, past, future, herr, hscan, hdescent, hviable, hnot⟩ := parse_blames_first hparse
  cases herr
  exact ⟨past, _, future, rfl, hscan, hdescent, hviable, hnot⟩

end NormalOrder.Grammar
