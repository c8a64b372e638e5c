import NormalOrder.Proofs.Term.Alpha
import NormalOrder.Proofs.Term.Parser
import NormalOrder.Term.Printer

/-!
# Printing and reading

The text of a term, if its names are spelled as the language spells them, is read as the term
again, up to parentheses and the places of metavariables (`parse_text`). What it is read as is the
term with the parentheses that its text has (`spelled`), and this has the same text.

A text is read as a term if its tokens have a derivation with it. There is one theorem for each way
to print, and each says of the parts what they have to be derived as: the body of an abstraction as
an abstraction, a function as a row of operands that can be gone on with, an argument as an operand
(`ReadAs.lam`, `ReadAs.app`). Parentheses make an operand of any term (`ReadAs.parens`), and the
printer puts them where the part alone would not do.
-/

namespace NormalOrder

variable {κ : Type}

namespace Term

/-! ## Terms that are spelled -/

/-- The names of a term are spelled as names are in texts, and there are no foreign constants, which
have no spelling. -/
def WellNamed : Term κ → Prop
  | var x => Token.Spelled .var x.toList
  | lam p b => Token.Spelled .var p.toList ∧ b.WellNamed
  | app f a => f.WellNamed ∧ a.WellNamed
  | group t => t.WellNamed
  | bind n t => Token.Spelled .metavar n.toList ∧ t.WellNamed
  | metavar n _ => Token.Spelled .metavar n.toList
  | const _ => False

/-- The term in parentheses, if they are needed. -/
def wrapped (needed : Bool) (t : Term κ) : Term κ := if needed then group t else t

/-- The term with the parentheses that its text has. -/
def spelled : Term κ → Term κ
  | var x => var x
  | lam p b => lam p (wrapped b.isBind b.spelled)
  | app f a => app (wrapped f.isOpenRight f.spelled) (wrapped a.isCompound a.spelled)
  | group t => group t.spelled
  | bind n t => bind n t.spelled
  | metavar n l => metavar n l
  | const c => const c

/-- Parentheses that are put in where needed can be taken out. -/
theorem dropGroups_wrapped (needed : Bool) (t : Term κ) :
    (wrapped needed t).dropGroups = t.dropGroups := by
  cases needed <;> rfl

/-- The parentheses of the text are all that is put in. -/
theorem dropGroups_spelled (t : Term κ) : t.spelled.dropGroups = t.dropGroups := by
  induction t with
  | var | metavar | const => rfl
  | lam p b ih => rw [spelled, dropGroups, dropGroups, dropGroups_wrapped, ih]
  | app f a ihf iha =>
    rw [spelled, dropGroups, dropGroups, dropGroups_wrapped, dropGroups_wrapped, ihf, iha]
  | group t ih => exact ih
  | bind n t ih => rw [spelled, dropGroups, dropGroups, ih]

/-- Places can be forgotten before parentheses are taken out or after. -/
theorem unlocated_dropGroups (t : Term κ) : t.dropGroups.unlocated = t.unlocated.dropGroups := by
  induction t with
  | var | metavar | const => rfl
  | lam p b ih => rw [dropGroups, unlocated, unlocated, dropGroups, ih]
  | app f a ihf iha => rw [dropGroups, unlocated, unlocated, dropGroups, ihf, iha]
  | group t ih => exact ih
  | bind n t ih => rw [dropGroups, unlocated, unlocated, dropGroups, ih]

variable [Shown κ]

/-- Parentheses that are put in show in the text. -/
theorem text_wrapped (needed : Bool) (t : Term κ) :
    (wrapped needed t).text = if needed then parenthesized t.text else t.text := by
  cases needed <;> rfl

/-- The text has the parentheses already that are put in. -/
theorem text_spelled (t : Term κ) : t.spelled.text = t.text := by
  have hbind : ∀ t : Term κ, (wrapped t.isBind t.spelled).isBind = false :=
    fun t => by cases t <;> rfl
  have hopen : ∀ t : Term κ, (wrapped t.isOpenRight t.spelled).isOpenRight = false :=
    fun t => by cases t <;> rfl
  have hcompound : ∀ t : Term κ, (wrapped t.isCompound t.spelled).isCompound = false :=
    fun t => by cases t <;> rfl
  induction t with
  | var | metavar | const => rfl
  | lam p b ih => rw [spelled, text, hbind, text_wrapped, ih, text, if_neg Bool.false_ne_true]
  | app f a ihf iha =>
    rw [spelled, text, hopen, hcompound, text_wrapped, text_wrapped, ihf, iha, text,
      if_neg Bool.false_ne_true, if_neg Bool.false_ne_true]
  | group t ih => rw [spelled, text, text, ih]
  | bind n t ih => rw [spelled, text, text, ih]

/-- The text does not show where metavariables were written. -/
theorem text_unlocated (t : Term κ) : t.unlocated.text = t.text := by
  have hbind : ∀ t : Term κ, t.unlocated.isBind = t.isBind := fun t => by cases t <;> rfl
  have hopen : ∀ t : Term κ, t.unlocated.isOpenRight = t.isOpenRight := fun t => by cases t <;> rfl
  have hcompound : ∀ t : Term κ, t.unlocated.isCompound = t.isCompound :=
    fun t => by cases t <;> rfl
  induction t with
  | var | metavar | const => rfl
  | lam p b ih => rw [unlocated, text, text, hbind, ih]
  | app f a ihf iha => rw [unlocated, text, text, hopen, hcompound, ihf, iha]
  | group t ih => rw [unlocated, text, text, ih]
  | bind n t ih => rw [unlocated, text, text, ih]

end Term

namespace Grammar

open Term

variable {toks toks' : List Token} {t f a b : Term κ}

/-! ## Names of a derivation -/

/-- Every token of the list is spelled as its kind is. -/
def AllSpelled (toks : List Token) : Prop := ∀ t ∈ toks, Token.Spelled t.kind t.lexeme.toList

/-- The token at the beginning of a list and those after it are spelled as their kinds are. -/
theorem allSpelled_cons {k : TokenKind} {w : Word k} :
    AllSpelled (w.1 :: toks) ↔ Token.Spelled k w.1.lexeme.toList ∧ AllSpelled toks := by
  rw [AllSpelled, List.forall_mem_cons, w.2, AllSpelled]

/-- The tokens of two lists one after the other are spelled as their kinds are. -/
theorem allSpelled_append :
    AllSpelled (toks ++ toks') ↔ AllSpelled toks ∧ AllSpelled toks' :=
  List.forall_mem_append

mutual

/-- The term of a binding has the names that are spelled by its tokens. -/
theorem Binding.wellNamed : (d : Binding) → AllSpelled d.tokens → (d.tree : Term κ).WellNamed
  | .assign n g a g' v, h => by
    simp only [Binding.tokens, allSpelled_cons, allSpelled_append] at h
    obtain ⟨hn, -, -, -, hv⟩ := h
    exact ⟨hn, Binding.wellNamed v hv⟩
  | .term t, h => Abstraction.wellNamed t h

/-- The term of an abstraction has the names that are spelled by its tokens. -/
theorem Abstraction.wellNamed :
    (d : Abstraction) → AllSpelled d.tokens → (d.tree : Term κ).WellNamed
  | .lambda l, h => Lambda.wellNamed l h
  | .application a, h => Application.wellNamed a h

/-- The term of an abstraction that begins with a λ has the names that are spelled by its tokens. -/
theorem Lambda.wellNamed : (d : Lambda) → AllSpelled d.tokens → (d.tree : Term κ).WellNamed
  | .mk l x p g b, h => by
    simp only [Lambda.tokens, allSpelled_cons, allSpelled_append] at h
    obtain ⟨-, hx, -, -, hb⟩ := h
    exact ⟨hx, Abstraction.wellNamed b hb⟩

/-- The term of an application has the names that are spelled by its tokens. -/
theorem Application.wellNamed :
    (d : Application) → AllSpelled d.tokens → (d.tree : Term κ).WellNamed
  | .mk t ops, h => by
    simp only [Application.tokens, allSpelled_append] at h
    exact Operands.wellNamed ops h.2 (Primary.wellNamed t h.1)

/-- Further operands bring in no names but those that are spelled by their tokens. -/
theorem Operands.wellNamed : (d : Operands) → AllSpelled d.tokens → {f : Term κ} →
    f.WellNamed → (d.tree f).WellNamed
  | .done, _, _, hf => hf
  | .operand s g t ops, h, _, hf => by
    simp only [Operands.tokens, allSpelled_cons, allSpelled_append] at h
    obtain ⟨-, -, ht, hops⟩ := h
    exact Operands.wellNamed ops hops ⟨hf, Primary.wellNamed t ht⟩
  | .last s g l, h, _, hf => by
    simp only [Operands.tokens, allSpelled_cons, allSpelled_append] at h
    obtain ⟨-, -, hl⟩ := h
    exact ⟨hf, Lambda.wellNamed l hl⟩

/-- The term of an operand has the names that are spelled by its tokens. -/
theorem Primary.wellNamed : (d : Primary) → AllSpelled d.tokens → (d.tree : Term κ).WellNamed
  | .parens l g b g' r, h => by
    simp only [Primary.tokens, allSpelled_cons, allSpelled_append] at h
    obtain ⟨-, -, hb, -⟩ := h
    exact Binding.wellNamed b hb
  | .var x, h => (allSpelled_cons.1 h).1
  | .metavar n, h => (allSpelled_cons.1 h).1

end

/-- What a text is read as is spelled as the text spells it. -/
theorem wellNamed_of_parse {source : String} {e : Term κ} (h : Term.parse source = .ok e) :
    e.WellNamed := by
  obtain ⟨toks, hscan, hread⟩ := exists_scan_of_parse h
  obtain ⟨hended, hspelled⟩ := Token.tokens_of_scan hscan
  obtain ⟨d, rfl, rfl⟩ := exists_program_of_ofTokens hended hread
  rw [Program.tokens] at hspelled
  obtain ⟨-, hbinding⟩ := allSpelled_append.1 hspelled
  exact d.binding.wellNamed (allSpelled_append.1 hbinding).1

/-! ## What the tokens of a text derive -/

/-- The tokens derive the term as an operand, up to places. -/
def IsPrimary (t : Term κ) (toks : List Token) : Prop :=
  ∃ d : Primary, d.tokens = toks ∧ (d.tree : Term κ).unlocated = t.unlocated

/-- The tokens derive the term as a row, up to places, and further operands can follow. -/
def IsRow (t : Term κ) (toks : List Token) : Prop :=
  ∃ u : Term κ, u.unlocated = t.unlocated ∧
    ∀ ops : Operands, ∃ d : Application, d.tokens = toks ++ ops.tokens ∧ d.tree = ops.tree u

/-- The tokens derive the term as an abstraction, up to places. -/
def IsAbstraction (t : Term κ) (toks : List Token) : Prop :=
  ∃ d : Abstraction, d.tokens = toks ∧ (d.tree : Term κ).unlocated = t.unlocated

/-- The tokens derive the term as a binding, up to places. -/
def IsBinding (t : Term κ) (toks : List Token) : Prop :=
  ∃ d : Binding, d.tokens = toks ∧ (d.tree : Term κ).unlocated = t.unlocated

/-- An operand alone is a row. -/
theorem IsPrimary.row (h : IsPrimary t toks) : IsRow t toks := by
  obtain ⟨d, rfl, ht⟩ := h
  exact ⟨d.tree, ht, fun ops => ⟨.mk d ops, rfl, rfl⟩⟩

/-- A row with one more operand is a row. -/
theorem IsRow.operand (hf : IsRow f toks) (ha : IsPrimary a toks') (s : Word .space) :
    IsRow (.app f a) (toks ++ s.1 :: toks') := by
  obtain ⟨u, hu, hrow⟩ := hf
  obtain ⟨d, rfl, hd⟩ := ha
  refine ⟨.app u d.tree, by rw [unlocated, unlocated, hu, hd], fun ops => ?_⟩
  obtain ⟨e, he, htree⟩ := hrow (.operand s [] d ops)
  exact ⟨e, by rw [he]; simp [Operands.tokens, Gap.tokens], htree⟩

/-- A row is an abstraction as the grammar calls it. -/
theorem IsRow.abstraction (h : IsRow t toks) : IsAbstraction t toks := by
  obtain ⟨u, hu, hrow⟩ := h
  obtain ⟨d, hd, htree⟩ := hrow .done
  refine ⟨.application d, ?_, ?_⟩
  · rw [Abstraction.tokens, hd, Operands.tokens, List.append_nil]
  · rw [Abstraction.tree, htree, Operands.tree, hu]

/-- An abstraction is a binding as the grammar calls it. -/
theorem IsAbstraction.binding (h : IsAbstraction t toks) : IsBinding t toks := by
  obtain ⟨d, rfl, hd⟩ := h
  exact ⟨.term d, rfl, hd⟩

/-! ## What a text is read as -/

/-- No name goes on in what follows. -/
structure Boundary (rest : List Char) : Prop where
  var : Token.Avoids (Token.Continuing .var) rest
  metavar : Token.Avoids (Token.Continuing .metavar) rest

/-- The text does not begin with space, and it is scanned, where no name goes on after it, to tokens
of which `P` holds. -/
structure ReadAs (s : String) (P : List Token → Prop) : Prop where
  solid : ∀ rest, Token.Avoids Token.isSpace (s.toList ++ rest)
  scan : ∀ here rest, Boundary rest → ∃ toks here', P toks ∧
    Token.scan here (s.toList ++ rest) = toks.foldr Token.consScan (Token.scan here' rest)

variable {s s' x p n : String} {P Q : List Token → Prop}

/-- A text is read as whatever follows from what it is read as. -/
theorem ReadAs.imp (h : ReadAs s P) (hPQ : ∀ toks, P toks → Q toks) : ReadAs s Q := by
  refine ⟨h.solid, fun here rest hrest => ?_⟩
  obtain ⟨toks, here', hP, hscan⟩ := h.scan here rest hrest
  exact ⟨toks, here', hPQ toks hP, hscan⟩

/-- Nothing goes on where the text ends. -/
theorem boundary_nil : Boundary [] := ⟨nofun, nofun⟩

/-- A character that is no part of a name is a boundary. -/
theorem boundary_cons {c : Char} (hx : Token.isSubscript c = false)
    (hn : Token.continuesMetavar c = false) (rest : List Char) : Boundary (c :: rest) :=
  ⟨fun _ hd => by cases hd; exact hx, fun _ hd => by cases hd; exact hn⟩

/-- A text spelled as a token is scanned as one, up to where the text after it begins. -/
theorem scan_word (k : TokenKind) (s : String) (rest : List Char) (here : Location)
    (h : Token.Spelled k s.toList) (hk : k ≠ .eof)
    (hrest : Token.Avoids (Token.Continuing k) rest) :
    ∃ (w : Word k) (here' : Location), w.1.lexeme = s ∧
      Token.scan here (s.toList ++ rest) = Token.consScan w.1 (Token.scan here' rest) :=
  ⟨⟨⟨k, s, here⟩, rfl⟩, _, rfl, by rw [Token.scan_spelled h hk hrest, String.ofList_toList]⟩

/-- A text spelled as a token of a kind whose tokens do not go on is scanned as one. -/
theorem scan_mark (k : TokenKind) (s : String) (rest : List Char) (here : Location)
    (h : Token.Spelled k s.toList) (hk : k ≠ .eof) (hnone : Token.Continuing k = fun _ => false) :
    ∃ (w : Word k) (here' : Location),
      Token.scan here (s.toList ++ rest) = Token.consScan w.1 (Token.scan here' rest) := by
  obtain ⟨w, here', -, hscan⟩ := scan_word k s rest here h hk (by rw [hnone]; exact fun _ _ => rfl)
  exact ⟨w, here', hscan⟩

/-- A blank is scanned as space where what comes after it is not. -/
theorem scan_blank (rest : List Char) (here : Location) (hrest : Token.Avoids Token.isSpace rest) :
    ∃ (w : Word .space) (here' : Location),
      Token.scan here (" ".toList ++ rest) = Token.consScan w.1 (Token.scan here' rest) := by
  obtain ⟨w, here', -, hscan⟩ :=
    scan_word .space " " rest here ⟨' ', [], rfl, rfl, nofun⟩ nofun hrest
  exact ⟨w, here', hscan⟩

/-- A variable is read as an operand. -/
theorem ReadAs.var (h : Token.Spelled .var x.toList) :
    ReadAs x (IsPrimary (Term.var x : Term κ)) := by
  refine ⟨fun rest => ?_, fun here rest hrest => ?_⟩
  · obtain ⟨c, more, hx, hc, -⟩ := h
    rw [hx]
    rintro d ⟨⟩
    exact (Token.not_mark_var hc).2.1
  · obtain ⟨w, here', hw, hscan⟩ := scan_word .var x rest here h nofun hrest.var
    exact ⟨[w.1], here', ⟨.var w, rfl, by rw [Primary.tree, hw]⟩, hscan⟩

/-- A metavariable is read as an operand. -/
theorem ReadAs.metavar (h : Token.Spelled .metavar n.toList) (l : Option Location) :
    ReadAs n (IsPrimary (Term.metavar n l : Term κ)) := by
  refine ⟨fun rest => ?_, fun here rest hrest => ?_⟩
  · obtain ⟨c, more, hn, hc, -⟩ := h
    rw [hn]
    rintro d ⟨⟩
    exact (Token.not_mark_metavar hc).2.1
  · obtain ⟨w, here', hw, hscan⟩ := scan_word .metavar n rest here h nofun hrest.metavar
    exact ⟨[w.1], here', ⟨.metavar w, rfl, by rw [Primary.tree, hw, unlocated, unlocated]⟩, hscan⟩

/-- A term in parentheses is read as an operand. -/
theorem ReadAs.parens (h : ReadAs s (IsBinding t)) :
    ReadAs (parenthesized s) (IsPrimary (Term.group t)) := by
  have hs : ∀ rest, (parenthesized s).toList ++ rest
      = "(".toList ++ (s.toList ++ (")".toList ++ rest)) := by
    simp [parenthesized, String.toList_append]
  refine ⟨fun rest => ?_, fun here rest _ => ?_⟩
  · rw [hs]
    rintro d ⟨⟩
    rfl
  · obtain ⟨l, here₁, hl⟩ :=
      scan_mark .lparen "(" (s.toList ++ (")".toList ++ rest)) here rfl nofun rfl
    obtain ⟨_, here₂, ⟨d, rfl, hd⟩, hscan⟩ :=
      h.scan here₁ (")".toList ++ rest) (boundary_cons rfl rfl rest)
    obtain ⟨r, here₃, hr⟩ := scan_mark .rparen ")" rest here₂ rfl nofun rfl
    refine ⟨l.1 :: (d.tokens ++ [r.1]), here₃, ⟨.parens l [] d [] r, rfl, ?_⟩, ?_⟩
    · rw [Primary.tree, unlocated, unlocated, hd]
    · rw [hs, hl, hscan, hr, List.foldr_cons, List.foldr_append]
      rfl

/-- An abstraction is read as one if its body is. -/
theorem ReadAs.lam (hp : Token.Spelled .var p.toList) (h : ReadAs s (IsAbstraction b)) :
    ReadAs ("\\" ++ p ++ "." ++ s) (IsAbstraction (Term.lam p b)) := by
  have hs : ∀ rest, ("\\" ++ p ++ "." ++ s).toList ++ rest
      = "\\".toList ++ (p.toList ++ (".".toList ++ (s.toList ++ rest))) := by
    simp [String.toList_append]
  refine ⟨fun rest => ?_, fun here rest hrest => ?_⟩
  · rw [hs]
    rintro d ⟨⟩
    rfl
  · obtain ⟨l, here₁, hl⟩ := scan_mark .lambda "\\"
      (p.toList ++ (".".toList ++ (s.toList ++ rest))) here (.inl rfl) nofun rfl
    obtain ⟨x, here₂, hx, hxscan⟩ := scan_word .var p (".".toList ++ (s.toList ++ rest)) here₁ hp
      nofun (boundary_cons rfl rfl _).var
    obtain ⟨e, here₃, he⟩ := scan_mark .dot "." (s.toList ++ rest) here₂ rfl nofun rfl
    obtain ⟨_, here₄, ⟨d, rfl, hd⟩, hscan⟩ := h.scan here₃ rest hrest
    refine ⟨l.1 :: x.1 :: e.1 :: d.tokens, here₄, ⟨.lambda (.mk l x e [] d), rfl, ?_⟩, ?_⟩
    · rw [Abstraction.tree, Lambda.tree, hx, unlocated, unlocated, hd]
    · rw [hs, hl, hxscan, he, hscan]
      rfl

/-- An application is read as a row if its function is, and its argument as an operand. -/
theorem ReadAs.app (hf : ReadAs s (IsRow f)) (ha : ReadAs s' (IsPrimary a)) :
    ReadAs (s ++ " " ++ s') (IsRow (Term.app f a)) := by
  have hs : ∀ rest, (s ++ " " ++ s').toList ++ rest
      = s.toList ++ (" ".toList ++ (s'.toList ++ rest)) := by
    simp [String.toList_append]
  refine ⟨fun rest => ?_, fun here rest hrest => ?_⟩
  · rw [hs]
    exact hf.solid _
  · obtain ⟨toks, here₁, hrow, hfscan⟩ :=
      hf.scan here (" ".toList ++ (s'.toList ++ rest)) (boundary_cons rfl rfl _)
    obtain ⟨w, here₂, hw⟩ := scan_blank (s'.toList ++ rest) here₁ (ha.solid rest)
    obtain ⟨toks', here₃, hprimary, hascan⟩ := ha.scan here₂ rest hrest
    refine ⟨toks ++ w.1 :: toks', here₃, hrow.operand hprimary w, ?_⟩
    rw [hs, hfscan, hw, hascan, List.foldr_append]
    rfl

/-- A binding is read as one if its value is. -/
theorem ReadAs.bind (hn : Token.Spelled .metavar n.toList) (h : ReadAs s (IsBinding t)) :
    ReadAs (n ++ " <- " ++ s) (IsBinding (Term.bind n t)) := by
  have hs : ∀ rest, (n ++ " <- " ++ s).toList ++ rest
      = n.toList ++ (" ".toList ++ ("<-".toList ++ (" ".toList ++ (s.toList ++ rest)))) := by
    simp [String.toList_append]
  refine ⟨fun rest => ?_, fun here rest hrest => ?_⟩
  · rw [hs]
    exact (ReadAs.metavar (κ := κ) hn none).solid _
  · obtain ⟨m, here₁, hm, hmscan⟩ := scan_word .metavar n
      (" ".toList ++ ("<-".toList ++ (" ".toList ++ (s.toList ++ rest)))) here hn nofun
      (boundary_cons rfl rfl _).metavar
    obtain ⟨w, here₂, hw⟩ := scan_blank ("<-".toList ++ (" ".toList ++ (s.toList ++ rest))) here₁
      (fun d hd => by cases hd; rfl)
    obtain ⟨r, here₃, hr⟩ :=
      scan_mark .arrow "<-" (" ".toList ++ (s.toList ++ rest)) here₂ rfl nofun rfl
    obtain ⟨w', here₄, hw'⟩ := scan_blank (s.toList ++ rest) here₃ (h.solid rest)
    obtain ⟨_, here₅, ⟨d, rfl, hd⟩, hscan⟩ := h.scan here₄ rest hrest
    refine ⟨m.1 :: w.1 :: r.1 :: w'.1 :: d.tokens, here₅, ⟨.assign m [w] r [w'] d, rfl, ?_⟩, ?_⟩
    · rw [Binding.tree, hm, unlocated, unlocated, hd]
    · rw [hs, hmscan, hw, hr, hw', hscan]
      rfl

/-! ## Terms -/

/-- What the tokens of its text derive the term as. -/
def derivedAs : Term κ → List Token → Prop
  | .lam p b => IsAbstraction (Term.lam p b).spelled
  | .app f a => IsRow (Term.app f a).spelled
  | .bind n t => IsBinding (Term.bind n t).spelled
  | t => IsPrimary t.spelled

/-- Every term is derived as a binding, as the grammar calls it. -/
theorem isBinding_of_derivedAs (h : derivedAs t toks) : IsBinding t.spelled toks := by
  cases t with
  | lam => exact IsAbstraction.binding h
  | app => exact (IsRow.abstraction h).binding
  | bind => exact h
  | var | group | metavar | const => exact (IsPrimary.row h).abstraction.binding

variable [Shown κ]

/-- A body is derived as an abstraction, in parentheses if it needs them. -/
theorem ReadAs.body (h : ReadAs b.text (derivedAs b)) :
    ReadAs (if b.isBind then parenthesized b.text else b.text)
      (IsAbstraction (wrapped b.isBind b.spelled)) := by
  have hparens := (h.imp fun _ => isBinding_of_derivedAs).parens
  cases b with
  | bind => exact hparens.imp fun _ h => h.row.abstraction
  | lam => exact h
  | app => exact h.imp fun _ h => IsRow.abstraction h
  | var | group | metavar | const => exact h.imp fun _ h => (IsPrimary.row h).abstraction

/-- A function is derived as a row, in parentheses if it needs them. -/
theorem ReadAs.function (h : ReadAs f.text (derivedAs f)) :
    ReadAs (if f.isOpenRight then parenthesized f.text else f.text)
      (IsRow (wrapped f.isOpenRight f.spelled)) := by
  have hparens := (h.imp fun _ => isBinding_of_derivedAs).parens
  cases f with
  | bind | lam => exact hparens.imp fun _ h => h.row
  | app => exact h
  | var | group | metavar | const => exact h.imp fun _ h => IsPrimary.row h

/-- An argument is derived as an operand, in parentheses if it needs them. -/
theorem ReadAs.argument (h : ReadAs a.text (derivedAs a)) :
    ReadAs (if a.isCompound then parenthesized a.text else a.text)
      (IsPrimary (wrapped a.isCompound a.spelled)) := by
  have hparens := (h.imp fun _ => isBinding_of_derivedAs).parens
  cases a with
  | bind | lam | app => exact hparens
  | var | group | metavar | const => exact h

/-- The text of a term is read as the term with the parentheses that it has. -/
theorem readAs_text (ht : t.WellNamed) : ReadAs t.text (derivedAs t) := by
  induction t with
  | var x => exact .var ht
  | lam p b ih => exact .lam ht.1 (ih ht.2).body
  | app f a ihf iha => exact .app (ihf ht.1).function (iha ht.2).argument
  | group t ih => exact ((ih ht).imp fun _ => isBinding_of_derivedAs).parens
  | bind n t ih => exact .bind ht.1 ((ih ht.2).imp fun _ => isBinding_of_derivedAs)
  | metavar n l => exact .metavar ht l
  | const => exact ht.elim

/-- The text of a term is read, and what it is read as is the term with the parentheses that it has,
up to places. -/
theorem exists_parse_text (ht : t.WellNamed) :
    ∃ u : Term κ, Term.parse t.text = .ok u ∧ u.unlocated = t.spelled.unlocated := by
  obtain ⟨toks, here, hderived, hscan⟩ := (readAs_text ht).scan Token.origin [] boundary_nil
  obtain ⟨d, rfl, hd⟩ := isBinding_of_derivedAs hderived
  let w : Word .eof := ⟨⟨.eof, "", here⟩, rfl⟩
  let program : Program := ⟨[], d, [], w⟩
  have hend : Token.scan here [] = ⟨.ok [w.1], here⟩ := by rw [Token.scan]
  have hprepend : ∀ toks : List Token,
      (toks.foldr Token.consScan ⟨.ok [w.1], here⟩).outcome = .ok (toks ++ [w.1]) := by
    intro toks
    induction toks with
    | nil => rfl
    | cons tok toks ih =>
      rw [List.foldr_cons, Token.consScan, ih]
      rfl
  have hok : (Token.scan Token.origin t.text.toList).outcome = .ok program.tokens := by
    rw [List.append_nil] at hscan
    rw [hscan, hend, hprepend]
    rfl
  refine ⟨d.tree, ?_, hd⟩
  rw [parse_of_scan hok, program.ofTokens]
  rfl

/-- Every term that a text is read as has names that are spelled as names are; and the text of every
such expression is read as the same expression again, up to parentheses and the places of its
metavariables. So the two are α-equivalent, and they have the same text. -/
theorem parse_text :
    (∀ (source : String) (e : Expr), Term.parse source = .ok e → e.WellNamed) ∧
      ∀ e : Expr, e.WellNamed → ∃ e' : Expr, Term.parse e.text = .ok e' ∧
        e'.dropGroups.same e.dropGroups = true ∧ e.alphaEquals e' = true ∧
        e'.alphaEquals e = true ∧ e'.text = e.text := by
  refine ⟨fun source e => wellNamed_of_parse, fun e he => ?_⟩
  obtain ⟨e', hparse, hspelled⟩ := exists_parse_text he
  have hsame : e'.dropGroups.unlocated = e.dropGroups.unlocated := by
    rw [unlocated_dropGroups, hspelled, ← unlocated_dropGroups, dropGroups_spelled]
  refine ⟨e', hparse, decide_eq_true hsame, alphaEquals_of_dropGroups (decide_eq_true hsame.symm),
    alphaEquals_of_dropGroups (decide_eq_true hsame), ?_⟩
  rw [← text_unlocated, hspelled, text_unlocated, text_spelled]

/-- An abstraction over a binding that is applied, with a subscripted name and with parentheses of its
own in an argument: the text adds the parentheses that the term does not have, and is read again. -/
theorem parse_text_nested :
    ∃ e e' : Expr,
      e = .lam "x" (.app
        (.bind "A" (.lam "y₁" (.app (.var "x") (.app (.var "y₁") (.metavar "$B2" none)))))
        (.lam "z" (.group (.var "z")))) ∧
      e.WellNamed ∧ e.text = "\\x.(A <- \\y₁.x (y₁ $B2)) (\\z.(z))" ∧
      Term.parse "\\x.(A <- \\y₁.x (y₁ $B2)) (\\z.(z))" = .ok e' ∧
      e'.dropGroups.same e.dropGroups = true ∧ e.alphaEquals e' = true ∧
      e'.alphaEquals e = true ∧ e'.text = e.text := by
  let e : Expr :=
    .lam "x" (.app
      (.bind "A" (.lam "y₁" (.app (.var "x") (.app (.var "y₁") (.metavar "$B2" none)))))
      (.lam "z" (.group (.var "z"))))
  have hx : Token.Spelled .var "x".toList := ⟨'x', [], rfl, rfl, nofun⟩
  have hy : Token.Spelled .var "y₁".toList := ⟨'y', ['₁'], rfl, rfl, by simp [Token.isSubscript]⟩
  have hz : Token.Spelled .var "z".toList := ⟨'z', [], rfl, rfl, nofun⟩
  have hA : Token.Spelled .metavar "A".toList := ⟨'A', [], rfl, rfl, nofun⟩
  have hB : Token.Spelled .metavar "$B2".toList :=
    ⟨'$', ['B', '2'], rfl, rfl, by simp [Token.continuesMetavar]⟩
  have he : e.WellNamed := ⟨hx, ⟨hA, hy, hx, hy, hB⟩, hz, hz⟩
  have htext : e.text = "\\x.(A <- \\y₁.x (y₁ $B2)) (\\z.(z))" := by decide +kernel
  obtain ⟨e', hparse, hsame, halpha, halpha', hprinted⟩ := parse_text.2 e he
  exact ⟨e, e', rfl, he, htext, htext ▸ hparse, hsame, halpha, halpha', hprinted⟩

end Grammar

end NormalOrder
