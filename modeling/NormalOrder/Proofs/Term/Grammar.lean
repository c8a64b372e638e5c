import NormalOrder.Term.Parser

/-!
# The grammar

Derivations of the grammar

    program     = SP* binding SP* EOF
    binding     = META SP* ARROW SP* binding | abstraction
    abstraction = lambda | application
    lambda      = LAMBDA VAR DOT SP* abstraction
    application = primary (SP+ primary)* [SP+ lambda]
    primary     = LPAREN SP* binding SP* RPAREN | VAR | META

as data: one type for each symbol and one constructor for each of its rules, with the tokens that
the rule has at its places. A derivation has the tokens that it derives (`tokens`) and the term that
it derives them with (`tree`); the operands of an application group to the left.

The grammar is unambiguous: a derivation is determined by its tokens (`Program.unique`). The
derivations of its parts are determined by what a list of tokens begins with, since none of them can
go on where another ends: what comes after an application, with or without space before it, is never
one more operand (`Closes`).
-/

namespace NormalOrder

namespace Grammar

/-- A token of a given kind. -/
abbrev Word (k : TokenKind) := { t : Token // t.kind = k }

/-- Space that may be absent. -/
abbrev Gap := List (Word .space)

mutual

/-- `META SP* ARROW SP* binding | abstraction` -/
inductive Binding where
  | assign (name : Word .metavar) (before : Gap) (arrow : Word .arrow) (after : Gap)
    (value : Binding)
  | term (t : Abstraction)

/-- `lambda | application` -/
inductive Abstraction where
  | lambda (l : Lambda)
  | application (a : Application)

/-- `LAMBDA VAR DOT SP* abstraction` -/
inductive Lambda where
  | mk (lambda : Word .lambda) (param : Word .var) (dot : Word .dot) (gap : Gap)
    (body : Abstraction)

/-- `primary (SP+ primary)* [SP+ lambda]` -/
inductive Application where
  | mk (head : Primary) (rest : Operands)

/-- `(SP+ primary)* [SP+ lambda]` -/
inductive Operands where
  | done
  | operand (space : Word .space) (gap : Gap) (t : Primary) (rest : Operands)
  | last (space : Word .space) (gap : Gap) (l : Lambda)

/-- `LPAREN SP* binding SP* RPAREN | VAR | META` -/
inductive Primary where
  | parens (lparen : Word .lparen) (before : Gap) (inner : Binding) (after : Gap)
    (rparen : Word .rparen)
  | var (x : Word .var)
  | metavar (n : Word .metavar)

end

/-- `SP* binding SP* EOF` -/
structure Program where
  before : Gap
  binding : Binding
  after : Gap
  eof : Word .eof

/-! ## Tokens and trees -/

/-- The tokens of a gap. -/
def Gap.tokens (g : Gap) : List Token := g.map Subtype.val

mutual

/-- The tokens that a binding derives. -/
def Binding.tokens : Binding → List Token
  | .assign n g a g' v => n.1 :: (Gap.tokens g ++ a.1 :: (Gap.tokens g' ++ v.tokens))
  | .term t => t.tokens

/-- The tokens that an abstraction derives. -/
def Abstraction.tokens : Abstraction → List Token
  | .lambda l => l.tokens
  | .application a => a.tokens

/-- The tokens that an abstraction derives which begins with a λ. -/
def Lambda.tokens : Lambda → List Token
  | .mk l x d g b => l.1 :: x.1 :: d.1 :: (Gap.tokens g ++ b.tokens)

/-- The tokens that an application derives. -/
def Application.tokens : Application → List Token
  | .mk t ops => t.tokens ++ ops.tokens

/-- The tokens that the further operands of an application derive. -/
def Operands.tokens : Operands → List Token
  | .done => []
  | .operand s g t ops => s.1 :: (Gap.tokens g ++ (t.tokens ++ ops.tokens))
  | .last s g l => s.1 :: (Gap.tokens g ++ l.tokens)

/-- The tokens that an operand derives. -/
def Primary.tokens : Primary → List Token
  | .parens l g b g' r => l.1 :: (Gap.tokens g ++ (b.tokens ++ (Gap.tokens g' ++ [r.1])))
  | .var x => [x.1]
  | .metavar n => [n.1]

end

/-- The tokens that a program derives. -/
def Program.tokens (d : Program) : List Token :=
  Gap.tokens d.before ++ (d.binding.tokens ++ (Gap.tokens d.after ++ [d.eof.1]))

variable {κ : Type}

mutual

/-- The term of a binding. -/
def Binding.tree : Binding → Term κ
  | .assign n _ _ _ v => .bind n.1.lexeme v.tree
  | .term t => t.tree

/-- The term of an abstraction. -/
def Abstraction.tree : Abstraction → Term κ
  | .lambda l => l.tree
  | .application a => a.tree

/-- The term of an abstraction that begins with a λ. -/
def Lambda.tree : Lambda → Term κ
  | .mk _ x _ _ b => .lam x.1.lexeme b.tree

/-- The term of an application. -/
def Application.tree : Application → Term κ
  | .mk t ops => ops.tree t.tree

/-- The term that `f` becomes when it is applied to the further operands one after another. -/
def Operands.tree : Operands → Term κ → Term κ
  | .done, f => f
  | .operand _ _ t ops, f => ops.tree (.app f t.tree)
  | .last _ _ l, f => .app f l.tree

/-- The term of an operand. -/
def Primary.tree : Primary → Term κ
  | .parens _ _ b _ _ => .group b.tree
  | .var x => .var x.1.lexeme
  | .metavar n => .metavar n.1.lexeme (some n.1.location)

end

/-- The term of a program. -/
def Program.tree (d : Program) : Term κ := d.binding.tree

/-! ## What a list of tokens begins with -/

/-- The kind of the first token that is not space. -/
def nextKind : List Token → Option TokenKind
  | [] => none
  | t :: toks => if t.kind = .space then nextKind toks else some t.kind

variable {toks toks' rest rest' : List Token} {g g' : Gap} {k : TokenKind}

/-- A space token is passed over. -/
theorem nextKind_space (s : Word .space) (toks : List Token) :
    nextKind (s.1 :: toks) = nextKind toks :=
  if_pos s.2

/-- A gap is passed over. -/
theorem nextKind_gap (g : Gap) (toks : List Token) :
    nextKind (Gap.tokens g ++ toks) = nextKind toks := by
  induction g with
  | nil => rfl
  | cons s g ih => exact (nextKind_space s _).trans ih

/-- A token that is not space is what comes next. -/
theorem nextKind_word (w : Word k) (hk : k ≠ .space) (toks : List Token) :
    nextKind (w.1 :: toks) = some k := by
  rw [nextKind, w.2, if_neg hk]

/-- The tokens of an operand begin with a parenthesis, a variable or a metavariable. -/
theorem nextKind_primary {t : Primary} (h : nextKind (t.tokens ++ toks) = some k) :
    k = .lparen ∨ k = .var ∨ k = .metavar := by
  cases t with
  | parens l g b g' r => exact .inl (Option.some.inj (h.symm.trans (nextKind_word l nofun _)))
  | var x => exact .inr (.inl (Option.some.inj (h.symm.trans (nextKind_word x nofun _))))
  | metavar n => exact .inr (.inr (Option.some.inj (h.symm.trans (nextKind_word n nofun _))))

/-- The tokens of an abstraction that begins with a λ do so. -/
theorem nextKind_lambda (l : Lambda) (toks : List Token) :
    nextKind (l.tokens ++ toks) = some .lambda := by
  cases l with
  | mk l x d g b => exact nextKind_word l nofun _

/-- What comes next is a closing parenthesis or the end of the input, so whatever is open before it
ends there. -/
def Closes (toks : List Token) : Prop :=
  nextKind toks = some .rparen ∨ nextKind toks = some .eof

/-- Space makes no difference to what comes next. -/
theorem closes_gap : Closes (Gap.tokens g ++ toks) ↔ Closes toks := by
  rw [Closes, nextKind_gap, Closes]

/-- A closing parenthesis closes. -/
theorem closes_rparen (r : Word .rparen) (toks : List Token) : Closes (r.1 :: toks) :=
  .inl (nextKind_word r nofun toks)

/-- The end of the input closes. -/
theorem closes_eof (e : Word .eof) (toks : List Token) : Closes (e.1 :: toks) :=
  .inr (nextKind_word e nofun toks)

/-- An operand after space does not close what is open before it. -/
theorem not_closes_operand (s : Word .space) (g : Gap) (t : Primary) (toks : List Token) :
    ¬ Closes (s.1 :: (Gap.tokens g ++ (t.tokens ++ toks))) := by
  rw [Closes, nextKind_space, nextKind_gap]
  rintro (h | h)
  · exact absurd (nextKind_primary h) (by decide)
  · exact absurd (nextKind_primary h) (by decide)

/-- An abstraction after space does not close what is open before it. -/
theorem not_closes_last (s : Word .space) (g : Gap) (l : Lambda) (toks : List Token) :
    ¬ Closes (s.1 :: (Gap.tokens g ++ (l.tokens ++ toks))) := by
  rw [Closes, nextKind_space, nextKind_gap, nextKind_lambda]
  exact not_or.2 ⟨nofun, nofun⟩

/-- No arrow comes after an operand, be there further ones after it or not. -/
theorem nextKind_operands (ops : Operands) (hc : Closes rest) :
    nextKind (ops.tokens ++ rest) ≠ some .arrow := by
  cases ops with
  | done =>
    intro h
    rcases hc with hc | hc
    · exact nomatch hc.symm.trans h
    · exact nomatch hc.symm.trans h
  | operand s g t ops =>
    rw [Operands.tokens, List.cons_append, List.append_assoc, List.append_assoc, nextKind_space,
      nextKind_gap]
    exact fun h => absurd (nextKind_primary h) (by decide)
  | last s g l =>
    rw [Operands.tokens, List.cons_append, List.append_assoc, nextKind_space, nextKind_gap,
      nextKind_lambda]
    exact nofun

/-! ## Uniqueness -/

/-- The list begins with a token that is not space. -/
def Solid (toks : List Token) : Prop := ∃ t rest, toks = t :: rest ∧ t.kind ≠ .space

/-- A list that begins with a word that is not space. -/
theorem solid_word (w : Word k) (hk : k ≠ .space) (toks : List Token) : Solid (w.1 :: toks) :=
  ⟨w.1, toks, rfl, by rwa [w.2]⟩

/-- The tokens of an operand do not begin with space. -/
theorem Primary.solid (t : Primary) (toks : List Token) : Solid (t.tokens ++ toks) := by
  cases t with
  | parens l g b g' r => exact solid_word l nofun _
  | var x => exact solid_word x nofun _
  | metavar n => exact solid_word n nofun _

/-- The tokens of an abstraction that begins with a λ do not begin with space. -/
theorem Lambda.solid (l : Lambda) (toks : List Token) : Solid (l.tokens ++ toks) := by
  cases l with
  | mk l x d g b => exact solid_word l nofun _

/-- The tokens of an abstraction do not begin with space. -/
theorem Abstraction.solid (t : Abstraction) (toks : List Token) : Solid (t.tokens ++ toks) := by
  cases t with
  | lambda l => exact l.solid toks
  | application a =>
    cases a with
    | mk t ops =>
      rw [Abstraction.tokens, Application.tokens, List.append_assoc]
      exact t.solid _

/-- The tokens of a binding do not begin with space. -/
theorem Binding.solid (b : Binding) (toks : List Token) : Solid (b.tokens ++ toks) := by
  cases b with
  | assign n g a g' v => exact solid_word n nofun _
  | term t => exact t.solid toks

/-- A gap ends where the space ends. -/
theorem gap_unique (h : Gap.tokens g ++ toks = Gap.tokens g' ++ toks') (hs : Solid toks)
    (hs' : Solid toks') : g = g' ∧ toks = toks' := by
  induction g generalizing g' with
  | nil =>
    cases g' with
    | nil => exact ⟨rfl, h⟩
    | cons s g' =>
      obtain ⟨t, rest, rfl, ht⟩ := hs
      obtain ⟨rfl, -⟩ := List.cons.inj h
      exact absurd s.2 ht
  | cons s g ih =>
    cases g' with
    | nil =>
      obtain ⟨t, rest, rfl, ht⟩ := hs'
      obtain ⟨hst, -⟩ := List.cons.inj h
      exact absurd (hst ▸ s.2) ht
    | cons s' g' =>
      obtain ⟨hst, h⟩ := List.cons.inj h
      obtain ⟨rfl, htoks⟩ := ih h
      obtain rfl := Subtype.ext hst
      exact ⟨rfl, htoks⟩

/-- A word and the gap after it end where the space ends. -/
theorem word_gap_unique {w w' : Word k}
    (h : w.1 :: (Gap.tokens g ++ toks) = w'.1 :: (Gap.tokens g' ++ toks')) (hs : Solid toks)
    (hs' : Solid toks') : w = w' ∧ g = g' ∧ toks = toks' := by
  obtain ⟨hw, h⟩ := List.cons.inj h
  obtain ⟨rfl, htoks⟩ := gap_unique h hs hs'
  exact ⟨Subtype.ext hw, rfl, htoks⟩

/-- Two words of different kinds are different tokens. -/
theorem word_ne {k' : TokenKind} (w : Word k) (w' : Word k') (hk : k ≠ k') : w.1 ≠ w'.1 :=
  fun h => hk (w.2.symm.trans (h ▸ w'.2))

/-- No abstraction that is closed after it begins with a name and an arrow. -/
theorem Abstraction.not_assign (t : Abstraction) (hc : Closes rest) (n : Word .metavar) (g : Gap)
    (a : Word .arrow) (toks : List Token) :
    n.1 :: (Gap.tokens g ++ a.1 :: toks) ≠ t.tokens ++ rest := by
  intro h
  cases t with
  | lambda l =>
    cases l with
    | mk l x d g b => exact word_ne n l nofun (List.cons.inj h).1
  | application s =>
    cases s with
    | mk t ops =>
      cases t with
      | parens l g b g' r => exact word_ne n l nofun (List.cons.inj h).1
      | var x => exact word_ne n x nofun (List.cons.inj h).1
      | metavar m =>
        have hnext := nextKind_operands ops hc
        rw [show ops.tokens ++ rest = Gap.tokens g ++ a.1 :: toks from (List.cons.inj h).2.symm,
          nextKind_gap, nextKind_word a nofun] at hnext
        exact hnext rfl

/-- An operand is not also an abstraction that begins with a λ. -/
theorem Primary.ne_lambda (t : Primary) (l : Lambda) : t.tokens ++ toks ≠ l.tokens ++ toks' := by
  intro h
  have hnext := nextKind_lambda l toks'
  rw [← h] at hnext
  exact absurd (nextKind_primary hnext) (by decide)

mutual

/-- A binding is determined by its tokens and ends where it is closed. -/
theorem Binding.unique : (d d' : Binding) → {rest rest' : List Token} →
    d.tokens ++ rest = d'.tokens ++ rest' → Closes rest → Closes rest' → d = d' ∧ rest = rest'
  | .assign n g a i v, .assign n' g' a' i' v', rest, rest', h, hc, hc' => by
    simp only [Binding.tokens, List.cons_append, List.append_assoc] at h
    obtain ⟨rfl, rfl, ha⟩ := word_gap_unique h (solid_word a nofun _) (solid_word a' nofun _)
    obtain ⟨rfl, rfl, hv⟩ := word_gap_unique ha (v.solid _) (v'.solid _)
    obtain ⟨rfl, hrest⟩ := Binding.unique v v' hv hc hc'
    exact ⟨rfl, hrest⟩
  | .assign n g a i v, .term t, rest, rest', h, hc, hc' => by
    simp only [Binding.tokens, List.cons_append, List.append_assoc] at h
    exact absurd h (t.not_assign hc' n g a _)
  | .term t, .assign n g a i v, rest, rest', h, hc, hc' => by
    simp only [Binding.tokens, List.cons_append, List.append_assoc] at h
    exact absurd h.symm (t.not_assign hc n g a _)
  | .term t, .term t', rest, rest', h, hc, hc' => by
    obtain ⟨rfl, hrest⟩ := Abstraction.unique t t' h hc hc'
    exact ⟨rfl, hrest⟩

/-- An abstraction is determined by its tokens and ends where it is closed. -/
theorem Abstraction.unique : (d d' : Abstraction) → {rest rest' : List Token} →
    d.tokens ++ rest = d'.tokens ++ rest' → Closes rest → Closes rest' → d = d' ∧ rest = rest'
  | .lambda l, .lambda l', rest, rest', h, hc, hc' => by
    obtain ⟨rfl, hrest⟩ := Lambda.unique l l' h hc hc'
    exact ⟨rfl, hrest⟩
  | .lambda l, .application (.mk t ops), rest, rest', h, hc, hc' => by
    simp only [Abstraction.tokens, Application.tokens, List.append_assoc] at h
    exact absurd h.symm (t.ne_lambda l)
  | .application (.mk t ops), .lambda l, rest, rest', h, hc, hc' => by
    simp only [Abstraction.tokens, Application.tokens, List.append_assoc] at h
    exact absurd h (t.ne_lambda l)
  | .application a, .application a', rest, rest', h, hc, hc' => by
    obtain ⟨rfl, hrest⟩ := Application.unique a a' h hc hc'
    exact ⟨rfl, hrest⟩

/-- An abstraction that begins with a λ is determined by its tokens and ends where it is closed. -/
theorem Lambda.unique : (d d' : Lambda) → {rest rest' : List Token} →
    d.tokens ++ rest = d'.tokens ++ rest' → Closes rest → Closes rest' → d = d' ∧ rest = rest'
  | .mk l x e g b, .mk l' x' e' g' b', rest, rest', h, hc, hc' => by
    simp only [Lambda.tokens, List.cons_append, List.append_assoc] at h
    obtain ⟨hl, hxe⟩ := List.cons.inj h
    obtain ⟨hx, he⟩ := List.cons.inj hxe
    obtain rfl := Subtype.ext hl
    obtain rfl := Subtype.ext hx
    obtain ⟨rfl, rfl, hb⟩ := word_gap_unique he (b.solid _) (b'.solid _)
    obtain ⟨rfl, hrest⟩ := Abstraction.unique b b' hb hc hc'
    exact ⟨rfl, hrest⟩

/-- An application is determined by its tokens and ends where it is closed. -/
theorem Application.unique : (d d' : Application) → {rest rest' : List Token} →
    d.tokens ++ rest = d'.tokens ++ rest' → Closes rest → Closes rest' → d = d' ∧ rest = rest'
  | .mk t ops, .mk t' ops', rest, rest', h, hc, hc' => by
    simp only [Application.tokens, List.append_assoc] at h
    obtain ⟨rfl, hops⟩ := Primary.unique t t' h
    obtain ⟨rfl, hrest⟩ := Operands.unique ops ops' hops hc hc'
    exact ⟨rfl, hrest⟩

/-- Further operands are determined by their tokens and end where they are closed. -/
theorem Operands.unique : (d d' : Operands) → {rest rest' : List Token} →
    d.tokens ++ rest = d'.tokens ++ rest' → Closes rest → Closes rest' → d = d' ∧ rest = rest'
  | .done, .done, rest, rest', h, hc, hc' => ⟨rfl, h⟩
  | .done, .operand s g t ops, rest, rest', h, hc, hc' => by
    simp only [Operands.tokens, List.nil_append, List.cons_append, List.append_assoc] at h
    exact absurd (h ▸ hc) (not_closes_operand s g t _)
  | .done, .last s g l, rest, rest', h, hc, hc' => by
    simp only [Operands.tokens, List.nil_append, List.cons_append, List.append_assoc] at h
    exact absurd (h ▸ hc) (not_closes_last s g l _)
  | .operand s g t ops, .done, rest, rest', h, hc, hc' => by
    simp only [Operands.tokens, List.nil_append, List.cons_append, List.append_assoc] at h
    exact absurd (h ▸ hc') (not_closes_operand s g t _)
  | .last s g l, .done, rest, rest', h, hc, hc' => by
    simp only [Operands.tokens, List.nil_append, List.cons_append, List.append_assoc] at h
    exact absurd (h ▸ hc') (not_closes_last s g l _)
  | .operand s g t ops, .operand s' g' t' ops', rest, rest', h, hc, hc' => by
    simp only [Operands.tokens, List.cons_append, List.append_assoc] at h
    obtain ⟨rfl, rfl, ht⟩ := word_gap_unique h (t.solid _) (t'.solid _)
    obtain ⟨rfl, hops⟩ := Primary.unique t t' ht
    obtain ⟨rfl, hrest⟩ := Operands.unique ops ops' hops hc hc'
    exact ⟨rfl, hrest⟩
  | .operand s g t ops, .last s' g' l, rest, rest', h, hc, hc' => by
    simp only [Operands.tokens, List.cons_append, List.append_assoc] at h
    obtain ⟨-, -, ht⟩ := word_gap_unique h (t.solid _) (l.solid _)
    exact absurd ht (t.ne_lambda l)
  | .last s g l, .operand s' g' t ops, rest, rest', h, hc, hc' => by
    simp only [Operands.tokens, List.cons_append, List.append_assoc] at h
    obtain ⟨-, -, ht⟩ := word_gap_unique h (l.solid _) (t.solid _)
    exact absurd ht.symm (t.ne_lambda l)
  | .last s g l, .last s' g' l', rest, rest', h, hc, hc' => by
    simp only [Operands.tokens, List.cons_append, List.append_assoc] at h
    obtain ⟨rfl, rfl, hl⟩ := word_gap_unique h (l.solid _) (l'.solid _)
    obtain ⟨rfl, hrest⟩ := Lambda.unique l l' hl hc hc'
    exact ⟨rfl, hrest⟩

/-- An operand is determined by its tokens, whatever comes after it. -/
theorem Primary.unique : (d d' : Primary) → {rest rest' : List Token} →
    d.tokens ++ rest = d'.tokens ++ rest' → d = d' ∧ rest = rest'
  | .parens l g b i r, .parens l' g' b' i' r', rest, rest', h => by
    simp only [Primary.tokens, List.cons_append, List.append_assoc, List.nil_append] at h
    obtain ⟨rfl, rfl, hb⟩ := word_gap_unique h (b.solid _) (b'.solid _)
    obtain ⟨rfl, hi⟩ := Binding.unique b b' hb (closes_gap.2 (closes_rparen r _))
      (closes_gap.2 (closes_rparen r' _))
    obtain ⟨rfl, hr⟩ := gap_unique hi (solid_word r nofun _) (solid_word r' nofun _)
    obtain ⟨hr, hrest⟩ := List.cons.inj hr
    obtain rfl := Subtype.ext hr
    exact ⟨rfl, hrest⟩
  | .var x, .var x', rest, rest', h => by
    obtain ⟨hx, hrest⟩ := List.cons.inj h
    obtain rfl := Subtype.ext hx
    exact ⟨rfl, hrest⟩
  | .metavar n, .metavar n', rest, rest', h => by
    obtain ⟨hn, hrest⟩ := List.cons.inj h
    obtain rfl := Subtype.ext hn
    exact ⟨rfl, hrest⟩
  | .parens l _ _ _ _, .var x, rest, rest', h => absurd (List.cons.inj h).1 (word_ne l x nofun)
  | .parens l _ _ _ _, .metavar n, rest, rest', h => absurd (List.cons.inj h).1 (word_ne l n nofun)
  | .var x, .parens l _ _ _ _, rest, rest', h => absurd (List.cons.inj h).1 (word_ne x l nofun)
  | .var x, .metavar n, rest, rest', h => absurd (List.cons.inj h).1 (word_ne x n nofun)
  | .metavar n, .parens l _ _ _ _, rest, rest', h => absurd (List.cons.inj h).1 (word_ne n l nofun)
  | .metavar n, .var x, rest, rest', h => absurd (List.cons.inj h).1 (word_ne n x nofun)

end

/-- A program is determined by its tokens. -/
theorem Program.unique {d d' : Program} (h : d.tokens = d'.tokens) : d = d' := by
  obtain ⟨g, b, i, e⟩ := d
  obtain ⟨g', b', i', e'⟩ := d'
  obtain ⟨rfl, hb⟩ := gap_unique h (b.solid _) (b'.solid _)
  obtain ⟨rfl, hi⟩ := Binding.unique b b' hb (closes_gap.2 (closes_eof e _))
    (closes_gap.2 (closes_eof e' _))
  obtain ⟨rfl, he⟩ := gap_unique hi (solid_word e nofun _) (solid_word e' nofun _)
  obtain rfl := Subtype.ext (List.cons.inj he).1
  rfl

end Grammar

end NormalOrder
