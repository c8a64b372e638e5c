import NormalOrder.Proofs.Term.Parser
import NormalOrder.Proofs.Token.Longest

/-!
# Metavariables and where they were written

The metavariables of a term that was read are among those of its text, in their order: reading leaves out the
names that are bound, and moves nothing (`Binding.metavars_sublist` and the others). So each of them stands
in the text where its location says, and they come from left to right and from line to line
(`metavars_of_parse`).
-/

namespace NormalOrder

variable {κ : Type} {t : Term κ}

namespace Term

/-! ## Terms -/

/-- The name of a metavariable, and where it was written. -/
def metavar? : Term κ → Option (String × Option Location)
  | .metavar n l => some (n, l)
  | .var _ | .lam _ _ | .app _ _ | .group _ | .bind _ _ | .const _ => none

/-- The metavariables of a term, from left to right. -/
def metavars (t : Term κ) : List (String × Option Location) := t.subterms.filterMap metavar?

theorem metavars_app (f a : Term κ) : (app f a).metavars = f.metavars ++ a.metavars :=
  List.filterMap_append

/-- What is listed for a metavariable is a part of the term. -/
theorem mem_metavars {n : String} {l : Option Location} :
    (n, l) ∈ t.metavars ↔ .metavar n l ∈ t.subterms := by
  rw [metavars, List.mem_filterMap]
  constructor
  · rintro ⟨u, hu, hr⟩
    cases u with
    | metavar =>
      cases hr
      exact hu
    | var | lam | app | group | bind | const => cases hr
  · exact fun h => ⟨_, h, rfl⟩

end Term

namespace Token

/-! ## Tokens -/

variable {k : TokenKind}

/-- The metavariables among tokens, with their places. -/
def metavars (toks : List Token) : List (String × Option Location) :=
  (toks.filter fun t => t.kind = .metavar).map fun t => (t.lexeme, some t.location)

theorem metavars_append (toks toks' : List Token) :
    metavars (toks ++ toks') = metavars toks ++ metavars toks' := by
  rw [metavars, List.filter_append, List.map_append, ← metavars, ← metavars]

/-- A metavariable is listed first. -/
theorem metavars_metavar (n : Grammar.Word .metavar) (toks : List Token) :
    metavars (n.1 :: toks) = (n.1.lexeme, some n.1.location) :: metavars toks := by
  rw [metavars, List.filter_cons_of_pos (by simp [n.2]), List.map_cons, ← metavars]

/-- A token of another kind is passed over. -/
theorem metavars_word (w : Grammar.Word k) (hk : k ≠ .metavar) (toks : List Token) :
    metavars (w.1 :: toks) = metavars toks := by
  rw [metavars, List.filter_cons_of_neg (by simpa [w.2] using hk), ← metavars]

/-- A gap is passed over. -/
theorem metavars_gap (g : Grammar.Gap) (toks : List Token) :
    metavars (Grammar.Gap.tokens g ++ toks) = metavars toks := by
  induction g with
  | nil => rfl
  | cons s g ih => exact (metavars_word s nofun _).trans ih

end Token

namespace Grammar

open Token Term

/-! ## Derivations -/

mutual

/-- The metavariables of a binding are those of its value, without the name that is bound. -/
theorem Binding.metavars_sublist :
    (d : Binding) → ((d.tree : Term κ).metavars).Sublist (Token.metavars d.tokens)
  | .assign n g a g' v => by
    rw [Binding.tree, Binding.tokens, metavars_metavar, metavars_gap, metavars_word a nofun,
      metavars_gap]
    exact v.metavars_sublist.cons _
  | .term t => t.metavars_sublist

/-- The metavariables of an abstraction are among its tokens. -/
theorem Abstraction.metavars_sublist :
    (d : Abstraction) → ((d.tree : Term κ).metavars).Sublist (Token.metavars d.tokens)
  | .lambda l => l.metavars_sublist
  | .application a => a.metavars_sublist

/-- The metavariables of an abstraction that begins with a λ are those of its body. -/
theorem Lambda.metavars_sublist :
    (d : Lambda) → ((d.tree : Term κ).metavars).Sublist (Token.metavars d.tokens)
  | .mk l x p g b => by
    rw [Lambda.tree, Lambda.tokens, metavars_word l nofun, metavars_word x nofun,
      metavars_word p nofun, metavars_gap]
    exact b.metavars_sublist

/-- The metavariables of an application are among the tokens of its operands. -/
theorem Application.metavars_sublist :
    (d : Application) → ((d.tree : Term κ).metavars).Sublist (Token.metavars d.tokens)
  | .mk t ops => by
    rw [Application.tree, Application.tokens, metavars_append]
    exact (ops.metavars_sublist _).trans
      ((List.append_sublist_append_right _).2 t.metavars_sublist)

/-- The metavariables of a term that is applied to further operands are its own and, after them, those of
the operands. -/
theorem Operands.metavars_sublist : (d : Operands) → (f : Term κ) →
    ((d.tree f).metavars).Sublist (f.metavars ++ Token.metavars d.tokens)
  | .done, f => List.sublist_append_left _ _
  | .operand s g t ops, f => by
    rw [Operands.tree, Operands.tokens, metavars_word s nofun, metavars_gap, metavars_append]
    have hops := ops.metavars_sublist (.app f t.tree)
    rw [metavars_app, List.append_assoc] at hops
    refine hops.trans ((List.append_sublist_append_left _).2 ?_)
    exact (List.append_sublist_append_right _).2 t.metavars_sublist
  | .last s g l, f => by
    rw [Operands.tree, Operands.tokens, metavars_word s nofun, metavars_gap, metavars_app]
    exact (List.append_sublist_append_left _).2 l.metavars_sublist

/-- The metavariables of an operand are the one that it is, or those in its parentheses. -/
theorem Primary.metavars_sublist :
    (d : Primary) → ((d.tree : Term κ).metavars).Sublist (Token.metavars d.tokens)
  | .parens l g b g' r => by
    rw [Primary.tree, Primary.tokens, metavars_word l nofun, metavars_gap, metavars_append]
    exact b.metavars_sublist.trans (List.sublist_append_left _ _)
  | .var _ => List.nil_sublist _
  | .metavar n => by
    rw [Primary.tree, Primary.tokens, metavars_metavar]
    exact List.Sublist.refl _

end

/-- The metavariables of a program are among its tokens. -/
theorem Program.metavars_sublist (d : Program) :
    ((d.tree : Term κ).metavars).Sublist (Token.metavars d.tokens) := by
  rw [Program.tree, Program.tokens, metavars_gap, metavars_append]
  exact d.binding.metavars_sublist.trans (List.sublist_append_left _ _)

end Grammar

/-! ## Texts -/

/-- The name `n` stands in a text at the place `l`. -/
def WrittenAt (source : String) (n : String) (l : Option Location) : Prop :=
  n ≠ "" ∧ ∃ before after, source.toList = before ++ (n.toList ++ after) ∧
    l = some (Token.placeAfter before)

/-- The metavariables among the tokens of a text stand in it where they say, and they come in the order of
their places. -/
theorem metavars_of_scan {source : String} {toks : List Token}
    (h : (Token.scan Token.origin source.toList).outcome = .ok toks) :
    (∀ n l, (n, l) ∈ Token.metavars toks → WrittenAt source n l) ∧
      (Token.metavars toks).Pairwise fun m m' =>
        ∃ l l', m.2 = some l ∧ m'.2 = some l' ∧ Token.Precedes l l' := by
  obtain ⟨-, hspelled⟩ := Token.tokens_of_scan h
  refine ⟨fun n l hmem => ?_, ?_⟩
  · obtain ⟨tok, htok, heq⟩ := List.mem_map.1 hmem
    obtain ⟨hin, hk⟩ := List.mem_filter.1 htok
    cases heq
    obtain ⟨past, future, hsplit⟩ := List.append_of_mem hin
    rw [hsplit] at h
    obtain ⟨before, after, hstands⟩ := Token.exists_stands h
    refine ⟨fun hempty => ?_, before, after, hstands.split, congrArg some hstands.location⟩
    have hnil := hspelled tok hin
    rw [hempty] at hnil
    rw [decide_eq_true_eq, Token.eof_of_spelled_nil hnil] at hk
    cases hk
  · obtain ⟨-, hpairs⟩ := Token.Cut.precedes (Token.cut_of_scan [] h)
    exact List.pairwise_map.2 ((hpairs.filter _).imp fun hlt => ⟨_, _, rfl, rfl, hlt⟩)

/-- The metavariables of a term that was read stand in the text where they say, and they come in the order
of their places. -/
theorem metavars_of_parse {source : String} {t : Expr} (h : Term.parse source = .ok t) :
    (∀ n l, .metavar n l ∈ t.subterms → WrittenAt source n l) ∧
      t.metavars.Pairwise fun m m' => ∃ l l', m.2 = some l ∧ m'.2 = some l' ∧ Token.Precedes l l' := by
  obtain ⟨toks, hscan, hread⟩ := Grammar.exists_scan_of_parse h
  obtain ⟨hended, -⟩ := Token.tokens_of_scan hscan
  obtain ⟨d, rfl, rfl⟩ := Grammar.exists_program_of_ofTokens hended hread
  obtain ⟨hwritten, hpairs⟩ := metavars_of_scan hscan
  have hsub := d.metavars_sublist (κ := Empty)
  exact ⟨fun n l hmem => hwritten n l (hsub.subset (Term.mem_metavars.2 hmem)), hpairs.sublist hsub⟩

end NormalOrder
