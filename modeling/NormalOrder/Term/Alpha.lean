import NormalOrder.Term
import NormalOrder.Violation

/-!
# Free variables, renaming and α-equivalence

`isFree` looks for a free occurrence and `rename` changes free occurrences; both are for expanded
terms and refuse a metavariable that they come upon. `alphaEquals` compares two terms up to the
names of bound variables. It carries the binders that enclose the two subterms as a list of
pairs, innermost first; two variables agree if the same pair binds them, or if neither is bound
and they have one name. Parentheses are invisible to it.
-/

namespace NormalOrder.Term

variable {κ : Type}

/-- Whether `x` occurs free. The argument of an application is looked at only if `x` is not free
in the function. -/
def isFree (x : String) : Term κ → Except Violation Bool
  | var y => .ok (y == x)
  | lam p b => if p = x then .ok false else b.isFree x
  | app f a =>
    match f.isFree x with
    | .ok false => a.isFree x
    | answer => answer
  | group t => t.isFree x
  | bind _ t => t.isFree x
  | metavar n _ => .error (.unexpanded n .freeVariables)
  | const _ => .ok false

/-- The term with every free `x` renamed to `y`. -/
def rename (x y : String) : Term κ → Except Violation (Term κ)
  | var z => .ok (if z = x then var y else var z)
  | lam p b => if p = x then .ok (lam p b) else (b.rename x y).map (lam p)
  | app f a =>
    match f.rename x y with
    | .error v => .error v
    | .ok f' => (a.rename x y).map (app f')
  | group t => (t.rename x y).map group
  | bind n t => (t.rename x y).map (bind n)
  | metavar n _ => .error (.unexpanded n .renaming)
  | const c => .ok (const c)

/-- An abstraction with its parameter renamed to `y`; `none` for any other term. -/
def alphaConvert (y : String) : Term κ → Option (Except Violation (Term κ))
  | lam p b => some ((b.rename p y).map (lam y))
  | _ => none

/-- The place of the first `x` in a list. -/
def placeOf (x : String) : List String → Option Nat
  | [] => none
  | y :: ys => if y = x then some 0 else (placeOf x ys).map (· + 1)

/-- Whether `x` and `y` are bound by the same pair of binders, or both free and alike. -/
def sameVariable (binders : List (String × String)) (x y : String) : Bool :=
  match placeOf x (binders.map Prod.fst), placeOf y (binders.map Prod.snd) with
  | some i, some j => i == j
  | none, none => x == y
  | _, _ => false

variable [DecidableEq κ]

/-- Whether two terms under the enclosing pairs of binders are α-equivalent. -/
def alphaEqualsUnder (binders : List (String × String)) : Term κ → Term κ → Bool
  | var x, t =>
    match t.ungroup with
    | var y => sameVariable binders x y
    | _ => false
  | lam p b, t =>
    match t.ungroup with
    | lam q c => alphaEqualsUnder ((p, q) :: binders) b c
    | _ => false
  | app f a, t =>
    match t.ungroup with
    | app g c => alphaEqualsUnder binders f g && alphaEqualsUnder binders a c
    | _ => false
  | group s, t => alphaEqualsUnder binders s t
  | bind n s, t =>
    match t.ungroup with
    | bind m u => n == m && alphaEqualsUnder binders s u
    | _ => false
  | metavar n _, t =>
    match t.ungroup with
    | metavar m _ => n == m
    | _ => false
  | const c, t =>
    match t.ungroup with
    | const d => c == d
    | _ => false

/-- Whether two terms differ at most in parentheses and in the names of bound variables. -/
def alphaEquals (s t : Term κ) : Bool := alphaEqualsUnder [] s t

end NormalOrder.Term
