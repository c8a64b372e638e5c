import NormalOrder.Proofs.Term.Metavariables

/-!
# The names that a text assigns to

A binding forgets where its name was written: of the name token the term keeps the lexeme alone. The
derivation of a text still has the token (`Program.assigned`). The names that the term binds are the
lexemes of these tokens, in their order (`Program.boundNames_tree`), and the tokens are metavariables of the
text, from left to right (`Program.assigned_sublist`).
-/

namespace NormalOrder.Grammar

open Token

variable {κ : Type}

/-! ## Name tokens -/

mutual

/-- The tokens of the names that a binding assigns to, from left to right. -/
def Binding.assigned : Binding → List Token
  | .assign n _ _ _ v => n.1 :: v.assigned
  | .term t => t.assigned

/-- The tokens of the names that are assigned to in an abstraction. -/
def Abstraction.assigned : Abstraction → List Token
  | .lambda l => l.assigned
  | .application a => a.assigned

/-- The tokens of the names that are assigned to below a λ. -/
def Lambda.assigned : Lambda → List Token
  | .mk _ _ _ _ b => b.assigned

/-- The tokens of the names that are assigned to in an application. -/
def Application.assigned : Application → List Token
  | .mk t ops => t.assigned ++ ops.assigned

/-- The tokens of the names that are assigned to in the further operands of an application. -/
def Operands.assigned : Operands → List Token
  | .done => []
  | .operand _ _ t ops => t.assigned ++ ops.assigned
  | .last _ _ l => l.assigned

/-- The tokens of the names that are assigned to in an operand. -/
def Primary.assigned : Primary → List Token
  | .parens _ _ b _ _ => b.assigned
  | .var _ | .metavar _ => []

end

/-- The tokens of the names that a program assigns to, from left to right. -/
def Program.assigned (d : Program) : List Token := d.binding.assigned

/-! ## Names of terms -/

mutual

/-- A binding binds the names that it assigns to. -/
theorem Binding.boundNames_tree :
    (d : Binding) → (d.tree : Term κ).boundNames = d.assigned.map (·.lexeme)
  | .assign n _ _ _ v => by
    rw [Binding.tree, Term.boundNames, Binding.assigned, List.map_cons, v.boundNames_tree]
  | .term t => t.boundNames_tree

/-- An abstraction binds the names that are assigned to in it. -/
theorem Abstraction.boundNames_tree :
    (d : Abstraction) → (d.tree : Term κ).boundNames = d.assigned.map (·.lexeme)
  | .lambda l => l.boundNames_tree
  | .application a => a.boundNames_tree

/-- An abstraction that begins with a λ binds the names of its body. -/
theorem Lambda.boundNames_tree :
    (d : Lambda) → (d.tree : Term κ).boundNames = d.assigned.map (·.lexeme)
  | .mk _ _ _ _ b => b.boundNames_tree

/-- An application binds the names of its operands. -/
theorem Application.boundNames_tree :
    (d : Application) → (d.tree : Term κ).boundNames = d.assigned.map (·.lexeme)
  | .mk t ops => by
    rw [Application.tree, ops.boundNames_tree, t.boundNames_tree, Application.assigned,
      List.map_append]

/-- A term that is applied to further operands binds its own names and, after them, those of the
operands. -/
theorem Operands.boundNames_tree : (d : Operands) → (f : Term κ) →
    (d.tree f).boundNames = f.boundNames ++ d.assigned.map (·.lexeme)
  | .done, f => (List.append_nil _).symm
  | .operand _ _ t ops, f => by
    rw [Operands.tree, ops.boundNames_tree, Term.boundNames, t.boundNames_tree, Operands.assigned,
      List.map_append, List.append_assoc]
  | .last _ _ l, f => by
    rw [Operands.tree, Term.boundNames, l.boundNames_tree, Operands.assigned]

/-- An operand binds the names in its parentheses. -/
theorem Primary.boundNames_tree :
    (d : Primary) → (d.tree : Term κ).boundNames = d.assigned.map (·.lexeme)
  | .parens _ _ b _ _ => b.boundNames_tree
  | .var _ | .metavar _ => rfl

end

/-- A program binds the names that it assigns to. -/
theorem Program.boundNames_tree (d : Program) :
    (d.tree : Term κ).boundNames = d.assigned.map (·.lexeme) :=
  d.binding.boundNames_tree

/-! ## Places of names -/

/-- What a token says, and where. -/
def written (t : Token) : String × Option Location := (t.lexeme, some t.location)

mutual

/-- The names that a binding assigns to are among its metavariables. -/
theorem Binding.assigned_sublist :
    (d : Binding) → (d.assigned.map written).Sublist (metavars d.tokens)
  | .assign n g a g' v => by
    rw [Binding.assigned, Binding.tokens, metavars_metavar, metavars_gap,
      metavars_word a (by decide), metavars_gap, List.map_cons]
    exact v.assigned_sublist.cons_cons _
  | .term t => t.assigned_sublist

/-- The names that are assigned to in an abstraction are among its metavariables. -/
theorem Abstraction.assigned_sublist :
    (d : Abstraction) → (d.assigned.map written).Sublist (metavars d.tokens)
  | .lambda l => l.assigned_sublist
  | .application a => a.assigned_sublist

/-- The names that are assigned to below a λ are among the metavariables there. -/
theorem Lambda.assigned_sublist :
    (d : Lambda) → (d.assigned.map written).Sublist (metavars d.tokens)
  | .mk l x p g b => by
    rw [Lambda.assigned, Lambda.tokens, metavars_word l (by decide), metavars_word x (by decide),
      metavars_word p (by decide), metavars_gap]
    exact b.assigned_sublist

/-- The names that are assigned to in an application are among the metavariables of its operands. -/
theorem Application.assigned_sublist :
    (d : Application) → (d.assigned.map written).Sublist (metavars d.tokens)
  | .mk t ops => by
    rw [Application.assigned, Application.tokens, metavars_append, List.map_append]
    exact t.assigned_sublist.append ops.assigned_sublist

/-- The names that are assigned to in further operands are among the metavariables there. -/
theorem Operands.assigned_sublist :
    (d : Operands) → (d.assigned.map written).Sublist (metavars d.tokens)
  | .done => List.nil_sublist _
  | .operand s g t ops => by
    rw [Operands.assigned, Operands.tokens, metavars_word s (by decide), metavars_gap, metavars_append,
      List.map_append]
    exact t.assigned_sublist.append ops.assigned_sublist
  | .last s g l => by
    rw [Operands.assigned, Operands.tokens, metavars_word s (by decide), metavars_gap]
    exact l.assigned_sublist

/-- The names that are assigned to in an operand are among the metavariables in its parentheses. -/
theorem Primary.assigned_sublist :
    (d : Primary) → (d.assigned.map written).Sublist (metavars d.tokens)
  | .parens l g b g' r => by
    rw [Primary.assigned, Primary.tokens, metavars_word l (by decide), metavars_gap, metavars_append]
    exact b.assigned_sublist.trans (List.sublist_append_left _ _)
  | .var _ | .metavar _ => List.nil_sublist _

end

/-- The names that a program assigns to are among its metavariables, in their order. -/
theorem Program.assigned_sublist (d : Program) :
    (d.assigned.map written).Sublist (metavars d.tokens) := by
  rw [Program.assigned, Program.tokens, metavars_gap, metavars_append]
  exact d.binding.assigned_sublist.trans (List.sublist_append_left _ _)

/-- The names that a text assigns to stand in it where their tokens say. -/
theorem Program.written_assigned {d : Program} {source : String}
    (h : (scan origin source.toList).outcome = .ok d.tokens) {t : Token} (ht : t ∈ d.assigned) :
    WrittenAt source t.lexeme (some t.location) :=
  (metavars_of_scan h).1 _ _ (d.assigned_sublist.subset (List.mem_map_of_mem ht))

end NormalOrder.Grammar
