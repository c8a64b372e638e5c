/-!
# Terms

Terms of the untyped λ-calculus with names for bound variables, extended by metavariables, which
stand for values of an environment, and by bindings, which store one there. A `group` is a pair
of parentheses that the source text had; it means what stands inside it (`ungroup`).

The type has a parameter `κ` of foreign constants, things that stand in a term without being
part of the calculus; no rule applies to them. An expression of the language proper is a
`Term Empty`, which has none.
-/

namespace NormalOrder

/-- A place in a source text: its line and its column, both counted from 1. -/
structure Location where
  /-- The number of the line. -/
  line : Int
  /-- The number of the character in its line. -/
  col : Int
deriving DecidableEq

/-- λ-terms over the foreign constants `κ`. -/
inductive Term (κ : Type) where
  /-- A variable. -/
  | var (name : String)
  /-- The function that takes `param` to `body`. -/
  | lam (param : String) (body : Term κ)
  /-- A function applied to an argument. -/
  | app (function argument : Term κ)
  /-- A term in parentheses. -/
  | group (inner : Term κ)
  /-- The assignment of the normal form of `value` to `name`. -/
  | bind (name : String) (value : Term κ)
  /-- A reference to the value of `name`, with the place where it was written, if known. -/
  | metavar (name : String) (location : Option Location)
  /-- A foreign constant. -/
  | const (value : κ)
deriving DecidableEq

/-- Expressions of the language: terms without foreign constants. -/
abbrev Expr := Term Empty

namespace Term

variable {κ : Type}

/-- Strips the parentheses around a term. -/
def ungroup : Term κ → Term κ
  | group t => t.ungroup
  | t => t

/-- The parts that a term is built from, from left to right. -/
def children : Term κ → List (Term κ)
  | lam _ b => [b]
  | app f a => [f, a]
  | group t => [t]
  | bind _ t => [t]
  | var _ | metavar _ _ | const _ => []

/-- Part number `i` of a term, counted from zero, or from the last part backwards if negative. -/
def child? (t : Term κ) (i : Int) : Option (Term κ) :=
  let i := if i < 0 then t.children.length + i else i
  if i < 0 then none else t.children[i.toNat]?

/-- A term and all terms inside it, each before its parts, from left to right. -/
def subterms : Term κ → List (Term κ)
  | lam p b => lam p b :: b.subterms
  | app f a => app f a :: (f.subterms ++ a.subterms)
  | group t => group t :: t.subterms
  | bind n t => bind n t :: t.subterms
  | t => [t]

/-- The names of variables and parameters in a term, from left to right. -/
def names : Term κ → List String
  | var x => [x]
  | lam p b => p :: b.names
  | app f a => f.names ++ a.names
  | group t => t.names
  | bind _ t => t.names
  | metavar _ _ | const _ => []

/-- The names that a term assigns to, from left to right. -/
def boundNames : Term κ → List String
  | lam _ b => b.boundNames
  | app f a => f.boundNames ++ a.boundNames
  | group t => t.boundNames
  | bind n t => n :: t.boundNames
  | var _ | metavar _ _ | const _ => []

/-- Forgets where metavariables were written. -/
def unlocated : Term κ → Term κ
  | var x => var x
  | lam p b => lam p b.unlocated
  | app f a => app f.unlocated a.unlocated
  | group t => group t.unlocated
  | bind n t => bind n t.unlocated
  | metavar n _ => metavar n none
  | const c => const c

/-- Whether two terms are built alike, whatever the places of their metavariables. -/
def same [DecidableEq κ] (s t : Term κ) : Bool := decide (s.unlocated = t.unlocated)

/-- Stripping parentheses once strips them all. -/
@[simp] theorem ungroup_ungroup (t : Term κ) : t.ungroup.ungroup = t.ungroup := by
  induction t with
  | group t ih => exact ih
  | _ => rfl

/-- A place that is forgotten cannot be forgotten again. -/
@[simp] theorem unlocated_unlocated (t : Term κ) : t.unlocated.unlocated = t.unlocated := by
  induction t <;> simp_all [unlocated]

end Term

end NormalOrder
