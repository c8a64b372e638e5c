import NormalOrder.Evaluator
import NormalOrder.Term.Parser

/-!
# The prelude

The values that an evaluator starts with, unless it is to start empty: combinators, truth values,
pairs and the first Church numerals. They are definitions in the language itself, evaluated line
by line, so that a line may refer to those before it. Expanding a line leaves no redex, so one
step evaluates it and no contraction is counted.
-/

namespace NormalOrder

/-- The definitions of the prelude, in the order in which they are evaluated. -/
def definitions : List String := [
  -- combinators
  "I <- \\x.x",
  "M <- \\x.x x",
  "K <- \\x.\\y.x",
  "KI <- \\x.\\y.y",
  "B <- \\f.\\g.\\x.f (g x)",
  "C <- \\f.\\x.\\y.f y x",
  "S <- \\x.\\y.\\z.x z (y z)",
  -- truth values
  "T <- K",
  "F <- KI",
  "TRUE <- T",
  "FALSE <- F",
  "NOT <- \\p.p F T",
  "AND <- \\p.\\q.p q p",
  "OR <- \\p.\\q.p p q",
  -- pairs
  "PAIR <- \\x.\\y.\\f.f x y",
  "FST <- \\p.p T",
  "SND <- \\p.p F",
  -- numerals
  "ZERO <- \\f.\\x.x",
  "SUCC <- \\n.\\f.\\x.f (n f x)",
  "ONE <- \\f.\\x.f x",
  "TWO <- \\f.\\x.f (f x)",
  "THREE <- \\f.\\x.f (f (f x))",
  "PLUS <- \\m.\\n.\\f.\\x.m f (n f x)",
  "MULT <- \\m.\\n.\\f.m (n f)",
  "ISZERO <- \\n.n (\\x.F) T"]

namespace Evaluator

variable {κ : Type} [Shown κ]

/-- Evaluates a definition; a text that is none changes nothing. -/
def define (m : Evaluator κ) (line : String) : Evaluator κ :=
  match Term.parse line with
  | .ok t => (m.evaluate 1 t).state
  | .error _ => m

/-- The evaluator that the options ask for. -/
def new (o : Options) : Evaluator κ :=
  if o.withPrelude then definitions.foldl define (blank o) else blank o

end Evaluator

end NormalOrder
