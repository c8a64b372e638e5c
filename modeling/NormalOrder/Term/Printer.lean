import NormalOrder.Term
import NormalOrder.Text.Slice

/-!
# Printing terms

`text` writes a term in the concrete syntax with the parentheses that reading it back needs: an
abstraction or a binding in function position, any compound argument, and a binding that is the
body of an abstraction. Parentheses of the source are kept. `outline` shows the whole tree, one
term a line, each four blanks further in than the one it is part of.
-/

namespace NormalOrder

/-- Types of foreign constants, which have a text to be shown by. -/
class Shown (κ : Type) where
  /-- The text of a constant. -/
  shown : κ → String

instance : Shown Empty := ⟨nofun⟩

/-- The text `s` in parentheses. -/
def parenthesized (s : String) : String := "(" ++ s ++ ")"

namespace Term

variable {κ : Type}

/-- Whether a term is a binding. -/
def isBind : Term κ → Bool
  | bind _ _ => true
  | _ => false

/-- Whether a term needs parentheses as the function of an application. -/
def isOpenRight : Term κ → Bool
  | lam _ _ | bind _ _ => true
  | _ => false

/-- Whether a term needs parentheses as the argument of an application. -/
def isCompound : Term κ → Bool
  | app _ _ | lam _ _ | bind _ _ => true
  | _ => false

variable [Shown κ]

/-- The text of a term. -/
def text : Term κ → String
  | var x => x
  | lam p b => "\\" ++ p ++ "." ++ if b.isBind then parenthesized b.text else b.text
  | app f a =>
    (if f.isOpenRight then parenthesized f.text else f.text) ++ " "
      ++ if a.isCompound then parenthesized a.text else a.text
  | group t => parenthesized t.text
  | bind n t => n ++ " <- " ++ t.text
  | metavar n _ => n
  | const c => Shown.shown c

/-- What a term is, in a word. -/
def kind : Term κ → String
  | var _ => "Variable"
  | lam _ _ => "Abstraction"
  | app _ _ => "Application"
  | group _ => "Grouping"
  | bind _ _ => "Binding"
  | metavar _ _ => "MetaVariable"
  | const _ => "Constant"

/-- A term in one line: its kind and its text. -/
def summary (t : Term κ) : String := t.kind ++ "('" ++ t.text ++ "')"

/-- What two terms must have in common to be filed under one heading. -/
def heading (t : Term κ) : String × String := (t.kind, t.text)

/-- The blanks that a line of an outline at depth `depth` begins with. -/
def margin (depth : Int) : String := Text.repeated (4 * depth) ' '

/-- The first line of an outline, up to its list of parts. -/
def outlineHead (t : Term κ) (depth : Int) : String :=
  margin depth ++ t.kind ++ "(expr='" ++ t.text ++ "'"

/-- Closes an outline whose parts have the outlines `parts`. -/
def outlineWith (t : Term κ) (depth : Int) (parts : List String) : String :=
  t.outlineHead depth ++ ", nodes=["
    ++ ",".intercalate (parts.map ("\n" ++ ·)) ++ "\n" ++ margin depth ++ "])"

/-- The tree of a term, set in by `depth` steps; a negative depth is not set in. -/
def outline : Term κ → Int → String
  | lam p b, d => (lam p b).outlineWith d [b.outline (d + 1)]
  | app f a, d => (app f a).outlineWith d [f.outline (d + 1), a.outline (d + 1)]
  | group t, d => (group t).outlineWith d [t.outline (d + 1)]
  | bind n t, d => (bind n t).outlineWith d [t.outline (d + 1)]
  | t, d => t.outlineHead d ++ ")"

end Term

end NormalOrder
