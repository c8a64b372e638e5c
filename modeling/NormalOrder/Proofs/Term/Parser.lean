import Mathlib
import NormalOrder.Proofs.Term.Grammar
import NormalOrder.Proofs.Token.Lexer

/-!
# The reader reads the grammar

The reader gives a term exactly if the tokens are derived with it, and refuses every other text at
one of its tokens (`parse_eq_ok_iff_derived`).

One direction follows the derivations: each phrase takes the reader from the place where it begins
to the row that it is read as (`Binding.readAll` and the others). The other follows the tokens
backwards: `Completes` says that the tokens from some place on derive what is still open there, and
each token that is read carries this over to the place before it (`completes_of_read`).
-/

namespace NormalOrder.Grammar

open Term

variable {κ : Type} {stack stack' : List (Frame κ)} {mode mode' : Mode κ} {t e : Term κ}
  {toks rest : List Token} {tok : Token}

/-! ## Derivations are read -/

/-- A token that the reader goes on after has been read. -/
theorem readAll_goOn (h : Term.read stack mode tok = .goOn mode' stack') (toks : List Token) :
    readAll mode stack (tok :: toks) = readAll mode' stack' toks := by
  rw [readAll, h]

/-- Space at the beginning of a term is passed over. -/
theorem readAll_start_gap (binding : Bool) (stack : List (Frame κ)) (g : Gap)
    (toks : List Token) :
    readAll (.start binding) stack (Gap.tokens g ++ toks)
      = readAll (.start binding) stack toks := by
  induction g with
  | nil => rfl
  | cons s g ih => exact (readAll_goOn (by rw [Term.read, readStart, s.2]) _).trans ih

/-- Space after a row is noted. -/
theorem readAll_row_space (t : Term κ) (spaced : Bool) (stack : List (Frame κ)) (s : Word .space)
    (g : Gap) (toks : List Token) :
    readAll (.row t spaced) stack (s.1 :: (Gap.tokens g ++ toks))
      = readAll (.row t true) stack toks := by
  induction g generalizing s spaced with
  | nil => exact readAll_goOn (by simp only [Term.read, readRow, s.2]) _
  | cons s' g ih =>
    exact (readAll_goOn (by simp only [Term.read, readRow, s.2]) _).trans (ih true s')

/-- A name before space and an arrow is bound. -/
theorem readAll_named_arrow (n : String) (l : Location) (spaced : Bool) (stack : List (Frame κ))
    (g : Gap) (a : Word .arrow) (toks : List Token) :
    readAll (.named n l spaced) stack (Gap.tokens g ++ a.1 :: toks)
      = readAll (.start true) (.value n :: stack) toks := by
  induction g generalizing spaced with
  | nil => exact readAll_goOn (by rw [Term.read, a.2]) _
  | cons s g ih => exact (readAll_goOn (by rw [Term.read, s.2]) _).trans (ih true)

/-- A name that no arrow comes after is a metavariable. -/
theorem readAll_named (n : String) (l : Location) (spaced : Bool) (stack : List (Frame κ))
    (h : nextKind toks ≠ some .arrow) :
    readAll (.named n l spaced) stack toks
      = readAll (.row (.metavar n (some l)) spaced) stack toks := by
  induction toks generalizing spaced with
  | nil => rfl
  | cons tok toks ih =>
    rw [nextKind] at h
    cases hk : tok.kind with
    | space =>
      rw [hk, if_pos rfl] at h
      simp only [readAll, Term.read, readRow, hk]
      exact ih true h
    | arrow =>
      rw [hk] at h
      exact absurd rfl h
    | lambda | var | dot | lparen | rparen | metavar | eof =>
      simp only [readAll, Term.read, hk]

/-- Where something closes, a frame that ends there can be closed before it is reached. -/
theorem readAll_closed {frame : Frame κ} {f : Term κ → Term κ}
    (hf : ∀ t, close (frame :: stack) t = close stack (f t)) (hc : Closes toks) (t : Term κ)
    (spaced spaced' : Bool) :
    readAll (.row t spaced) (frame :: stack) toks = readAll (.row (f t) spaced') stack toks := by
  induction toks generalizing spaced spaced' with
  | nil => simp [Closes, nextKind] at hc
  | cons tok toks ih =>
    rw [Closes, nextKind] at hc
    cases hk : tok.kind with
    | space =>
      rw [hk, if_pos rfl] at hc
      simp only [readAll, Term.read, readRow, hk]
      exact ih hc true true
    | rparen | eof => simp only [readAll, Term.read, readRow, hk, hf t]
    | lambda | var | dot | lparen | metavar | arrow =>
      simp [hk] at hc

/-- A closing parenthesis after a term and space makes it an operand. -/
theorem readAll_rparen (f : Option (Term κ)) (t : Term κ) (spaced : Bool)
    (stack : List (Frame κ)) (g : Gap) (r : Word .rparen) (toks : List Token) :
    readAll (.row t spaced) (.parens f :: stack) (Gap.tokens g ++ r.1 :: toks)
      = readAll (.row (applied f (.group t)) false) stack toks := by
  induction g generalizing spaced with
  | nil => exact readAll_goOn (by simp only [Term.read, readRow, r.2, close]) _
  | cons s g ih => exact (readAll_goOn (by simp only [Term.read, readRow, s.2]) _).trans (ih true)

/-- The end of the input after a term and space ends it. -/
theorem readAll_eof (t : Term κ) (spaced : Bool) (g : Gap) (w : Word .eof) (toks : List Token) :
    readAll (.row t spaced) [] (Gap.tokens g ++ w.1 :: toks) = .ok t := by
  induction g generalizing spaced with
  | nil =>
    show readAll (.row t spaced) [] (w.1 :: toks) = .ok t
    simp only [readAll, Term.read, readRow, w.2, close]
  | cons s g ih => exact (readAll_goOn (by simp only [Term.read, readRow, s.2]) _).trans (ih true)

/-- The place where an operand may stand: at the beginning of a term, or after the row `f` and
space. -/
def place (binding : Bool) : Option (Term κ) → Mode κ
  | none => .start binding
  | some f => .row f true

/-- An abstraction is read from its parameter on as its body is, and then closed. -/
theorem readAll_param (x : Word .var) (p : Word .dot) (g : Gap) (stack : List (Frame κ))
    (toks : List Token) :
    readAll .param stack (x.1 :: p.1 :: (Gap.tokens g ++ toks))
      = readAll (.start false) (.body x.1.lexeme :: stack) toks := by
  rw [readAll_goOn (by rw [Term.read, if_pos x.2]), readAll_goOn (by rw [Term.read, if_pos p.2]),
    readAll_start_gap]

mutual

/-- A binding at the beginning of a term, up to where it is closed, is read as its term. -/
theorem Binding.readAll : (d : Binding) → (stack : List (Frame κ)) → {rest : List Token} →
    Closes rest → Term.readAll (.start true) stack (d.tokens ++ rest)
      = Term.readAll (.row d.tree false) stack rest
  | .assign n g a g' v, stack, rest, hc => by
    simp only [Binding.tokens, List.cons_append, List.append_assoc]
    rw [readAll_goOn (by rw [Term.read, readStart, n.2, if_pos rfl]), readAll_named_arrow,
      readAll_start_gap, Binding.readAll v _ hc, readAll_closed (fun _ => rfl) hc _ false false,
      Binding.tree]
  | .term t, stack, rest, hc => Abstraction.readAll t true stack hc

/-- An abstraction at the beginning of a term, up to where it is closed, is read as its term. -/
theorem Abstraction.readAll : (d : Abstraction) → (binding : Bool) → (stack : List (Frame κ)) →
    {rest : List Token} → Closes rest →
    Term.readAll (.start binding) stack (d.tokens ++ rest)
      = Term.readAll (.row d.tree false) stack rest
  | .lambda l, binding, stack, _, hc => Lambda.readAll l binding none stack hc
  | .application a, binding, stack, _, hc => Application.readAll a binding stack hc

/-- An abstraction that begins with a λ, where an operand may stand and up to where it is closed,
is read as an operand. -/
theorem Lambda.readAll : (d : Lambda) → (binding : Bool) → (f : Option (Term κ)) →
    (stack : List (Frame κ)) → {rest : List Token} → Closes rest →
    Term.readAll (place binding f) stack (d.tokens ++ rest)
      = Term.readAll (.row (applied f d.tree) false) stack rest
  | .mk l x p g b, binding, none, stack, rest, hc => by
    simp only [Lambda.tokens, List.cons_append, List.append_assoc]
    rw [readAll_goOn (by rw [place, Term.read, readStart, l.2]), readAll_param,
      Abstraction.readAll b false _ hc, readAll_closed (fun _ => rfl) hc _ false false,
      Lambda.tree, applied]
  | .mk l x p g b, binding, some f, stack, rest, hc => by
    simp only [Lambda.tokens, List.cons_append, List.append_assoc]
    have hl : Term.read stack (place binding (some f)) l.1
        = .goOn .param (.operand f :: stack) := by
      simp only [place, Term.read, readRow, l.2]
    rw [readAll_goOn hl, readAll_param,
      Abstraction.readAll b false _ hc, readAll_closed (fun _ => rfl) hc _ false false,
      readAll_closed (fun _ => rfl) hc _ false false, Lambda.tree, applied]

/-- An application at the beginning of a term, up to where it is closed, is read as its term. -/
theorem Application.readAll : (d : Application) → (binding : Bool) → (stack : List (Frame κ)) →
    {rest : List Token} → Closes rest →
    Term.readAll (.start binding) stack (d.tokens ++ rest)
      = Term.readAll (.row d.tree false) stack rest
  | .mk t ops, binding, stack, rest, hc => by
    rw [Application.tokens, List.append_assoc]
    have ht := Primary.readAll t binding none stack fun _ => nextKind_operands ops hc
    rw [place, applied] at ht
    rw [ht, Operands.readAll ops _ stack hc, Application.tree]

/-- Further operands after a row, up to where they are closed, are read as its arguments. -/
theorem Operands.readAll : (d : Operands) → (f : Term κ) → (stack : List (Frame κ)) →
    {rest : List Token} → Closes rest →
    Term.readAll (.row f false) stack (d.tokens ++ rest)
      = Term.readAll (.row (d.tree f) false) stack rest
  | .done, f, stack, rest, hc => rfl
  | .operand s g t ops, f, stack, rest, hc => by
    simp only [Operands.tokens, List.cons_append, List.append_assoc]
    have ht : Term.readAll (.row f true) stack (t.tokens ++ (ops.tokens ++ rest))
        = Term.readAll (.row (.app f t.tree) false) stack (ops.tokens ++ rest) :=
      Primary.readAll t false (some f) stack nofun
    rw [readAll_row_space, ht, Operands.readAll ops _ stack hc, Operands.tree]
  | .last s g l, f, stack, rest, hc => by
    simp only [Operands.tokens, List.cons_append, List.append_assoc]
    have hl := Lambda.readAll l false (some f) stack hc
    rw [place, applied] at hl
    rw [readAll_row_space, hl, Operands.tree]

/-- An operand is read as an operand where one may stand. At the beginning of a term no arrow may
come after it. -/
theorem Primary.readAll : (d : Primary) → (binding : Bool) → (f : Option (Term κ)) →
    (stack : List (Frame κ)) → {rest : List Token} →
    (f = none → nextKind rest ≠ some .arrow) →
    Term.readAll (place binding f) stack (d.tokens ++ rest)
      = Term.readAll (.row (applied f d.tree) false) stack rest
  | .parens l g b g' r, binding, f, stack, rest, _ => by
    simp only [Primary.tokens, List.cons_append, List.append_assoc, List.nil_append]
    have hl : Term.read stack (place binding f) l.1
        = .goOn (.start true) (.parens f :: stack) := by
      cases f with
      | none => rw [place, Term.read, readStart, l.2]
      | some f => simp only [place, Term.read, readRow, l.2]
    rw [readAll_goOn hl, readAll_start_gap,
      Binding.readAll b _ (closes_gap.2 (closes_rparen r rest)), readAll_rparen, Primary.tree]
  | .var x, binding, none, stack, rest, _ =>
    readAll_goOn (by rw [place, Term.read, readStart, x.2, Primary.tree, applied]) rest
  | .var x, binding, some f, stack, rest, _ =>
    readAll_goOn (by simp only [place, Term.read, readRow, x.2, Primary.tree, applied]) rest
  | .metavar n, true, none, stack, rest, h =>
    (readAll_goOn (by rw [place, Term.read, readStart, n.2, if_pos rfl]) rest).trans
      (readAll_named _ _ false stack (h rfl))
  | .metavar n, false, none, stack, rest, _ =>
    readAll_goOn (by rw [place, Term.read, readStart, n.2, if_neg Bool.false_ne_true,
      Primary.tree, applied]) rest
  | .metavar n, _, some f, stack, rest, _ =>
    readAll_goOn (by simp only [place, Term.read, readRow, n.2, Primary.tree, applied]) rest

end

/-- The tokens of a program are read as its term. -/
theorem Program.ofTokens (d : Program) :
    (Term.ofTokens d.tokens : Except ReadError (Term κ)) = .ok d.tree := by
  obtain ⟨g, b, g', w⟩ := d
  rw [Term.ofTokens, Program.tokens, readAll_start_gap,
    Binding.readAll b [] (closes_gap.2 (closes_eof w [])), readAll_eof, Program.tree]

/-! ## What is read is derived -/

/-- After a term `t` that ends there, the tokens close the frames of `stack` around it, give what is
closed its further operands, and end the input with the term `e`. -/
def Finishes : List (Frame κ) → Term κ → List Token → Term κ → Prop
  | [], t, toks, e =>
    ∃ (g : Gap) (w : Word .eof) (rest : List Token),
      toks = Gap.tokens g ++ w.1 :: rest ∧ t = e
  | .body p :: stack, t, toks, e => Finishes stack (.lam p t) toks e
  | .operand f :: stack, t, toks, e => Finishes stack (.app f t) toks e
  | .value n :: stack, t, toks, e => Finishes stack (.bind n t) toks e
  | .parens f :: stack, t, toks, e =>
    ∃ (g : Gap) (r : Word .rparen) (ops : Operands) (rest : List Token),
      toks = Gap.tokens g ++ r.1 :: (ops.tokens ++ rest) ∧
        Finishes stack (ops.tree (applied f (.group t))) rest e

/-- The tokens give the row `t` its further operands and finish it with the term `e`; if `spaced`,
they do so after space. -/
def Continues (stack : List (Frame κ)) (t : Term κ) (e : Term κ) : Bool → List Token → Prop
  | false, toks =>
    ∃ (ops : Operands) (rest : List Token),
      toks = ops.tokens ++ rest ∧ Finishes stack (ops.tree t) rest e
  | true, toks =>
    ∀ s : Word .space, ∃ (ops : Operands) (rest : List Token),
      s.1 :: toks = ops.tokens ++ rest ∧ Finishes stack (ops.tree t) rest e

/-- The tokens derive what is being read and then finish with the term `e`. -/
def Completes : Mode κ → List (Frame κ) → List Token → Term κ → Prop
  | .start true, stack, toks, e =>
    ∃ (g : Gap) (d : Binding) (rest : List Token),
      toks = Gap.tokens g ++ (d.tokens ++ rest) ∧ Finishes stack d.tree rest e
  | .start false, stack, toks, e =>
    ∃ (g : Gap) (d : Abstraction) (rest : List Token),
      toks = Gap.tokens g ++ (d.tokens ++ rest) ∧ Finishes stack d.tree rest e
  | .param, stack, toks, e =>
    ∃ (x : Word .var) (p : Word .dot) (g : Gap) (d : Abstraction) (rest : List Token),
      toks = x.1 :: p.1 :: (Gap.tokens g ++ (d.tokens ++ rest)) ∧
        Finishes stack (.lam x.1.lexeme d.tree) rest e
  | .stop x, stack, toks, e =>
    ∃ (p : Word .dot) (g : Gap) (d : Abstraction) (rest : List Token),
      toks = p.1 :: (Gap.tokens g ++ (d.tokens ++ rest)) ∧ Finishes stack (.lam x d.tree) rest e
  | .named n l spaced, stack, toks, e =>
    (∃ (g : Gap) (a : Word .arrow) (g' : Gap) (d : Binding) (rest : List Token),
        toks = Gap.tokens g ++ a.1 :: (Gap.tokens g' ++ (d.tokens ++ rest)) ∧
          Finishes stack (.bind n d.tree) rest e) ∨
      Continues stack (.metavar n (some l)) e spaced toks
  | .row t spaced, stack, toks, e => Continues stack t e spaced toks

/-- Space before the tokens that finish does not matter. -/
theorem Finishes.space (h : Finishes stack t toks e) (s : Word .space) :
    Finishes stack t (s.1 :: toks) e := by
  induction stack generalizing t with
  | nil =>
    obtain ⟨g, w, rest, rfl, rfl⟩ := h
    exact ⟨s :: g, w, rest, rfl, rfl⟩
  | cons frame stack ih =>
    cases frame with
    | body | operand | value => exact ih h
    | parens f =>
      obtain ⟨g, r, ops, rest, rfl, hrest⟩ := h
      exact ⟨s :: g, r, ops, rest, rfl, hrest⟩

/-- A row may have no further operands. -/
theorem Finishes.continues (h : Finishes stack t toks e) (spaced : Bool) :
    Continues stack t e spaced toks := by
  cases spaced with
  | false => exact ⟨.done, toks, rfl, h⟩
  | true => exact fun s => ⟨.done, s.1 :: toks, rfl, h.space s⟩

/-- Space before further operands is space between them. -/
theorem Continues.space (h : Continues stack t e true toks) (s : Word .space) (spaced : Bool) :
    Continues stack t e spaced (s.1 :: toks) := by
  cases spaced with
  | false => exact h s
  | true =>
    intro s'
    obtain ⟨ops, rest, htoks, hrest⟩ := h s
    cases ops with
    | done =>
      obtain rfl : s.1 :: toks = rest := htoks
      exact ⟨.done, _, rfl, hrest.space s'⟩
    | operand s₁ g t' ops =>
      obtain ⟨hs, rfl⟩ := List.cons.inj htoks
      exact ⟨.operand s' (s :: g) t' ops, rest, rfl, hrest⟩
    | last s₁ g l =>
      obtain ⟨hs, rfl⟩ := List.cons.inj htoks
      exact ⟨.last s' (s :: g) l, rest, rfl, hrest⟩

/-- An operand after space is a further one. -/
theorem Continues.operand {d : Primary} (h : Continues stack (.app t d.tree) e false rest) :
    Continues stack t e true (d.tokens ++ rest) := by
  obtain ⟨ops, rest, rfl, hrest⟩ := h
  exact fun s => ⟨.operand s [] d ops, rest, by simp [Operands.tokens, Gap.tokens], hrest⟩

/-- An abstraction after space is the last operand. -/
theorem Finishes.last {d : Lambda} (h : Finishes stack (.app t d.tree) rest e) :
    Continues stack t e true (d.tokens ++ rest) :=
  fun s => ⟨.last s [] d, rest, rfl, h⟩

/-- Where frames can be closed up to a parenthesis, a closing one finishes. -/
theorem finishes_of_close {t' : Term κ} {f : Option (Term κ)}
    (h : close stack t = (t', some (f, stack'))) (r : Word .rparen)
    (hrest : Continues stack' (applied f (.group t')) e false toks) :
    Finishes stack t (r.1 :: toks) e := by
  induction stack generalizing t with
  | nil => cases h
  | cons frame stack ih =>
    cases frame with
    | body | operand | value => exact ih h
    | parens f =>
      cases h
      obtain ⟨ops, rest, rfl, hfin⟩ := hrest
      exact ⟨[], r, ops, rest, rfl, hfin⟩

/-- Where all frames can be closed, the end of the input finishes. -/
theorem finishes_of_close_none (h : close stack t = (e, none)) (w : Word .eof)
    (toks : List Token) : Finishes stack t (w.1 :: toks) e := by
  induction stack generalizing t with
  | nil =>
    cases h
    exact ⟨[], w, toks, rfl, rfl⟩
  | cons frame stack ih =>
    cases frame with
    | body | operand | value => exact ih h
    | parens f => cases h

/-- A token after a row can be put before the tokens that complete what it begins. -/
theorem continues_of_readRow {spaced : Bool}
    (h : readRow stack t spaced tok = .goOn mode' stack') (hc : Completes mode' stack' toks e) :
    Continues stack t e spaced (tok :: toks) := by
  cases hk : tok.kind with
  | space =>
    simp only [readRow, hk] at h
    cases h
    exact hc.space ⟨tok, hk⟩ spaced
  | rparen =>
    simp only [readRow, hk] at h
    split at h
    · next t' f stack₁ hclose =>
      cases h
      exact (finishes_of_close hclose ⟨tok, hk⟩ hc).continues spaced
    · cases h
  | eof =>
    simp only [readRow, hk] at h
    split at h <;> cases h
  | var =>
    cases spaced with
    | false => simp [readRow, hk] at h
    | true =>
      simp only [readRow, hk] at h
      cases h
      exact Continues.operand (d := .var ⟨tok, hk⟩) hc
  | metavar =>
    cases spaced with
    | false => simp [readRow, hk] at h
    | true =>
      simp only [readRow, hk] at h
      cases h
      exact Continues.operand (d := .metavar ⟨tok, hk⟩) hc
  | lparen =>
    cases spaced with
    | false => simp [readRow, hk] at h
    | true =>
      simp only [readRow, hk] at h
      cases h
      obtain ⟨g, d, rest, rfl, g', r, ops, rest', rfl, hfin⟩ := hc
      have hcont : Continues stack (.app t (Primary.parens ⟨tok, hk⟩ g d g' r).tree) e false
          (ops.tokens ++ rest') := ⟨ops, rest', rfl, hfin⟩
      simpa [Primary.tokens] using hcont.operand
  | lambda =>
    cases spaced with
    | false => simp [readRow, hk] at h
    | true =>
      simp only [readRow, hk] at h
      cases h
      obtain ⟨x, p, g, d, rest, rfl, hfin⟩ := hc
      have hlast : Finishes stack (.app t (Lambda.mk ⟨tok, hk⟩ x p g d).tree) rest e := hfin
      simpa [Lambda.tokens] using hlast.last
  | dot | arrow => simp [readRow, hk] at h

/-- An abstraction completes the beginning of a term. -/
theorem Finishes.start {d : Abstraction} (h : Finishes stack d.tree rest e) (binding : Bool) :
    Completes (.start binding) stack (d.tokens ++ rest) e := by
  cases binding with
  | true => exact ⟨[], .term d, rest, rfl, h⟩
  | false => exact ⟨[], d, rest, rfl, h⟩

/-- An operand with further ones completes the beginning of a term. -/
theorem Continues.start {d : Primary} (h : Continues stack d.tree e false toks)
    (binding : Bool) : Completes (.start binding) stack (d.tokens ++ toks) e := by
  obtain ⟨ops, rest, rfl, hfin⟩ := h
  have hstart : Finishes stack (Abstraction.application (.mk d ops)).tree rest e := hfin
  simpa [Abstraction.tokens, Application.tokens] using hstart.start binding

/-- A token at the beginning of a term can be put before the tokens that complete what it begins. -/
theorem completes_of_readStart {binding : Bool}
    (h : readStart stack binding tok = .goOn mode' stack') (hc : Completes mode' stack' toks e) :
    Completes (.start binding) stack (tok :: toks) e := by
  cases hk : tok.kind with
  | space =>
    simp only [readStart, hk] at h
    cases h
    cases binding with
    | true =>
      obtain ⟨g, d, rest, rfl, hfin⟩ := hc
      exact ⟨⟨tok, hk⟩ :: g, d, rest, rfl, hfin⟩
    | false =>
      obtain ⟨g, d, rest, rfl, hfin⟩ := hc
      exact ⟨⟨tok, hk⟩ :: g, d, rest, rfl, hfin⟩
  | lambda =>
    simp only [readStart, hk] at h
    cases h
    obtain ⟨x, p, g, d, rest, rfl, hfin⟩ := hc
    have hstart : Finishes stack (Abstraction.lambda (.mk ⟨tok, hk⟩ x p g d)).tree rest e := hfin
    simpa [Abstraction.tokens, Lambda.tokens] using hstart.start binding
  | lparen =>
    simp only [readStart, hk] at h
    cases h
    obtain ⟨g, d, rest, rfl, g', r, ops, rest', rfl, hfin⟩ := hc
    have hcont : Continues stack (Primary.parens ⟨tok, hk⟩ g d g' r).tree e false
        (ops.tokens ++ rest') := ⟨ops, rest', rfl, hfin⟩
    simpa [Primary.tokens] using hcont.start binding
  | var =>
    simp only [readStart, hk] at h
    cases h
    exact Continues.start (d := .var ⟨tok, hk⟩) hc binding
  | metavar =>
    cases binding with
    | true =>
      simp only [readStart, hk, if_pos] at h
      cases h
      rcases hc with ⟨g, a, g', d, rest, rfl, hfin⟩ | hc
      · exact ⟨[], .assign ⟨tok, hk⟩ g a g' d, rest, by simp [Binding.tokens, Gap.tokens], hfin⟩
      · exact Continues.start (d := .metavar ⟨tok, hk⟩) hc true
    | false =>
      simp only [readStart, hk, if_neg Bool.false_ne_true] at h
      cases h
      exact Continues.start (d := .metavar ⟨tok, hk⟩) hc false
  | dot | rparen | arrow | eof => simp [readStart, hk] at h

/-- A token can be put before the tokens that complete what it begins or goes on with. -/
theorem completes_of_read (h : Term.read stack mode tok = .goOn mode' stack')
    (hc : Completes mode' stack' toks e) : Completes mode stack (tok :: toks) e := by
  cases mode with
  | start binding => exact completes_of_readStart h hc
  | param =>
    rw [Term.read] at h
    split at h
    · next hk =>
      cases h
      obtain ⟨p, g, d, rest, rfl, hfin⟩ := hc
      exact ⟨⟨tok, hk⟩, p, g, d, rest, rfl, hfin⟩
    · cases h
  | stop x =>
    rw [Term.read] at h
    split at h
    · next hk =>
      cases h
      obtain ⟨g, d, rest, rfl, hfin⟩ := hc
      exact ⟨⟨tok, hk⟩, g, d, rest, rfl, hfin⟩
    · cases h
  | named n l spaced =>
    cases hk : tok.kind with
    | space =>
      simp only [Term.read, hk] at h
      cases h
      rcases hc with ⟨g, a, g', d, rest, rfl, hfin⟩ | hc
      · exact .inl ⟨⟨tok, hk⟩ :: g, a, g', d, rest, rfl, hfin⟩
      · exact .inr (hc.space ⟨tok, hk⟩ spaced)
    | arrow =>
      simp only [Term.read, hk] at h
      cases h
      obtain ⟨g, d, rest, rfl, hfin⟩ := hc
      exact .inl ⟨[], ⟨tok, hk⟩, g, d, rest, rfl, hfin⟩
    | lambda | var | dot | lparen | rparen | metavar | eof =>
      simp only [Term.read, hk] at h
      exact .inr (continues_of_readRow h hc)
  | row t spaced => exact continues_of_readRow h hc

/-- The token after which the reader is done ends the input where everything is closed. -/
theorem completes_of_done (h : Term.read stack mode tok = .done e) (toks : List Token) :
    Completes mode stack (tok :: toks) e := by
  have hrow : ∀ {t : Term κ} {spaced : Bool}, readRow stack t spaced tok = .done e →
      Continues stack t e spaced (tok :: toks) := by
    intro t spaced h
    unfold readRow at h
    split at h <;> try cases h
    · split at h <;> cases h
    · next hk =>
      split at h
      · next hclose =>
        cases h
        exact (finishes_of_close_none hclose ⟨tok, hk⟩ toks).continues _
      · cases h
  cases mode with
  | start binding =>
    simp only [Term.read, readStart] at h
    split at h <;> try cases h
    split at h <;> cases h
  | param =>
    rw [Term.read] at h
    split at h <;> cases h
  | stop x =>
    rw [Term.read] at h
    split at h <;> cases h
  | named n l spaced =>
    simp only [Term.read] at h
    split at h
    · cases h
    · cases h
    · exact .inr (hrow h)
  | row t spaced => exact hrow h

/-- The tokens that are read derive the term that they are read as. -/
theorem completes_of_readAll (h : readAll mode stack toks = .ok e) :
    Completes mode stack toks e := by
  induction toks generalizing mode stack with
  | nil => cases h
  | cons tok toks ih =>
    rw [readAll] at h
    split at h
    · next hread => exact completes_of_read hread (ih h)
    · next hread =>
      cases h
      exact completes_of_done hread toks
    · cases h

/-! ## Texts -/

/-- The reader does not go on after the end of the input. -/
theorem read_eof (hk : tok.kind = .eof) (stack : List (Frame κ)) (mode : Mode κ) :
    Term.read stack mode tok ≠ .goOn mode' stack' := by
  have hrow : ∀ (t : Term κ) (spaced : Bool), readRow stack t spaced tok ≠ .goOn mode' stack' := by
    intro t spaced
    simp only [readRow, hk]
    split <;> exact nofun
  cases mode with
  | start binding => simp [Term.read, readStart, hk]
  | param | stop => simp [Term.read, hk]
  | named n l spaced =>
    simp only [Term.read, hk]
    exact hrow _ _
  | row t spaced => exact hrow t spaced

/-- Tokens that end with one for the end of the input are read as a term or refused at one of
them. -/
theorem misplaced_of_readAll {err : ReadError} (ht : Token.Ended toks)
    (h : readAll mode stack toks = .error err) :
    ∃ expected found, err = .misplaced expected found ∧ found ∈ toks := by
  induction ht generalizing mode stack with
  | eof hk =>
    rw [readAll] at h
    split at h
    · next hread => exact absurd hread (read_eof hk stack mode)
    · cases h
    · cases h
      exact ⟨_, _, rfl, .head _⟩
  | cons _ _ ih =>
    rw [readAll] at h
    split at h
    · obtain ⟨expected, found, rfl, hfound⟩ := ih h
      exact ⟨expected, found, rfl, .tail _ hfound⟩
    · cases h
    · cases h
      exact ⟨_, _, rfl, .head _⟩

/-- Tokens that end where the first of them for the end of the input does are derived by the program
that they are read as. -/
theorem exists_program_of_ofTokens (ht : Token.Ended toks)
    (h : Term.ofTokens toks = .ok e) : ∃ d : Program, d.tokens = toks ∧ d.tree = e := by
  obtain ⟨g, b, rest, rfl, g', w, rest', rfl, rfl⟩ := completes_of_readAll h
  have hrest : rest' = [] := by
    rw [← List.append_assoc, ← List.append_assoc] at ht
    exact ht.eq_nil w.2
  subst hrest
  exact ⟨⟨g, b, g', w⟩, rfl, rfl⟩

/-- A text that can be cut into tokens is read as they are. -/
theorem parse_of_scan {source : String}
    (h : (Token.scan Token.origin source.toList).outcome = .ok toks) :
    (Term.parse source : Except SourceError (Term κ))
      = (Term.ofTokens toks).mapError SourceError.grammar := by
  rw [Term.parse, h]
  simp only
  cases (Term.ofTokens toks : Except ReadError (Term κ)) with
  | error | ok => rfl

/-- A text that is read can be cut into tokens, and these are read as the same term. -/
theorem exists_scan_of_parse {source : String} {e : Term κ} (h : Term.parse source = .ok e) :
    ∃ toks, (Token.scan Token.origin source.toList).outcome = .ok toks ∧
      Term.ofTokens toks = .ok e := by
  cases hscan : (Token.scan Token.origin source.toList).outcome with
  | error err =>
    rw [Term.parse, hscan] at h
    cases h
  | ok toks =>
    rw [parse_of_scan hscan] at h
    cases hr : (Term.ofTokens toks : Except ReadError (Term κ)) with
    | error err =>
      rw [hr] at h
      cases h
    | ok e' =>
      rw [hr] at h
      cases h
      exact ⟨toks, rfl, hr⟩

/-- A text that is not read has a character that no token begins with, or is refused at one of its tokens. -/
theorem error_of_parse {source : String} {err : SourceError}
    (h : (Term.parse source : Except SourceError (Term κ)) = .error err) :
    (∃ u, err = .lexical u ∧ (Token.scan Token.origin source.toList).outcome = .error u) ∨
      ∃ toks expected found, err = .grammar (.misplaced expected found) ∧
        (Token.scan Token.origin source.toList).outcome = .ok toks ∧ found ∈ toks ∧
        (Term.ofTokens toks : Except ReadError (Term κ)) = .error (.misplaced expected found) := by
  cases hscan : (Token.scan Token.origin source.toList).outcome with
  | error u =>
    rw [Term.parse, hscan] at h
    cases h
    exact .inl ⟨u, rfl, rfl⟩
  | ok toks =>
    obtain ⟨hended, -⟩ := Token.tokens_of_scan hscan
    rw [parse_of_scan hscan] at h
    cases hr : (Term.ofTokens toks : Except ReadError (Term κ)) with
    | ok e =>
      rw [hr] at h
      cases h
    | error err' =>
      rw [hr] at h
      cases h
      obtain ⟨expected, found, rfl, hfound⟩ := misplaced_of_readAll hended hr
      exact .inr ⟨toks, expected, found, rfl, rfl, hfound, hr⟩

/-- A text that can be cut into tokens is read as a term exactly if its tokens are derived with that
term; there is at most one such derivation; and if there is none, the text is refused at one of its
tokens. -/
theorem parse_eq_ok_iff_derived {source : String}
    (h : (Token.scan Token.origin source.toList).outcome = .ok toks) :
    (∀ e : Expr, Term.parse source = .ok e ↔ ∃ d : Program, d.tokens = toks ∧ d.tree = e) ∧
      (∀ d d' : Program, d.tokens = toks → d'.tokens = toks → d = d') ∧
      ((¬ ∃ d : Program, d.tokens = toks) → ∃ expected found,
        (Term.parse source : Except SourceError Expr)
          = .error (.grammar (.misplaced expected found)) ∧ found ∈ toks) := by
  obtain ⟨hended, -⟩ := Token.tokens_of_scan h
  rw [parse_of_scan h]
  refine ⟨fun e => ⟨fun he => ?_, ?_⟩, fun d d' hd hd' => Program.unique (hd.trans hd'.symm), ?_⟩
  · cases hr : (Term.ofTokens toks : Except ReadError Expr) with
    | error err =>
      rw [hr] at he
      cases he
    | ok e' =>
      rw [hr] at he
      cases he
      exact exists_program_of_ofTokens hended hr
  · rintro ⟨d, rfl, rfl⟩
    rw [d.ofTokens]
    rfl
  · intro hnone
    cases hr : (Term.ofTokens toks : Except ReadError Expr) with
    | error err =>
      obtain ⟨expected, found, rfl, hfound⟩ := misplaced_of_readAll hended hr
      exact ⟨expected, found, rfl, hfound⟩
    | ok e =>
      obtain ⟨d, hd, -⟩ := exists_program_of_ofTokens hended hr
      exact absurd ⟨d, hd⟩ hnone

/-- A binding of a parenthesized function applied to a variable has one derivation, with the term
that it is read as. -/
theorem derived_binding :
    ∃ (toks : List Token) (e : Expr),
      e = .bind "X" (.app (.group (.lam "x" (.var "x"))) (.var "y")) ∧
      (Token.scan Token.origin "X <- (\\x.x) y".toList).outcome = .ok toks ∧
      Term.parse "X <- (\\x.x) y" = .ok e ∧
      ∃ d : Program, d.tokens = toks ∧ d.tree = e ∧ ∀ d' : Program, d'.tokens = toks → d' = d := by
  let toks : List Token :=
    [⟨.metavar, "X", ⟨1, 1⟩⟩, ⟨.space, " ", ⟨1, 2⟩⟩, ⟨.arrow, "<-", ⟨1, 3⟩⟩, ⟨.space, " ", ⟨1, 5⟩⟩,
      ⟨.lparen, "(", ⟨1, 6⟩⟩, ⟨.lambda, "\\", ⟨1, 7⟩⟩, ⟨.var, "x", ⟨1, 8⟩⟩, ⟨.dot, ".", ⟨1, 9⟩⟩,
      ⟨.var, "x", ⟨1, 10⟩⟩, ⟨.rparen, ")", ⟨1, 11⟩⟩, ⟨.space, " ", ⟨1, 12⟩⟩, ⟨.var, "y", ⟨1, 13⟩⟩,
      ⟨.eof, "", ⟨1, 14⟩⟩]
  let e : Expr := .bind "X" (.app (.group (.lam "x" (.var "x"))) (.var "y"))
  have hscan : (Token.scan Token.origin "X <- (\\x.x) y".toList).outcome = .ok toks := by cbv
  have hparse : Term.parse "X <- (\\x.x) y" = .ok e := by cbv
  obtain ⟨hiff, hunique, -⟩ := parse_eq_ok_iff_derived hscan
  obtain ⟨d, hd, he⟩ := (hiff e).1 hparse
  exact ⟨toks, e, rfl, hscan, hparse, d, hd, he, fun d' hd' => hunique d' d hd' hd⟩

end NormalOrder.Grammar
