import NormalOrder.OrderedMap
import NormalOrder.Proofs.Term.Alpha

/-!
# α-equivalence decided with tables of depths

Two terms can be compared in one pass that keeps, for each of them, a table of the binders around the
place reached: under every name the depths of its binders, the innermost first. A binder adds its depth
when its body is entered and takes it off when the body is left, also when the bodies differ. The tables
are handed on from one part of a term to the next, so names stay in them whose binders have all been
left; such a name is free again. `compareIn` is that comparison.

While the binders `binders` are open, the tables list the places in that list at which each name stands
(`DepthTables.Track`), whatever was compared before. Depths count from the outside and places from the
inside, and as both terms are under equally many binders the innermost binders of two variables have one
depth exactly if they have one place (`sameDepth_eq`). So this comparison finds what `alphaEquals` finds
(`compareIn_eq`), which is whether the nameless forms are equal; it is an equivalence relation that all
constructors respect (`alphaEquals_decides`).
-/

namespace NormalOrder.Term

variable {κ : Type}

/-! ## Comparison with tables -/

/-- The binders around the place that a comparison has reached, in the first and in the second term: for
each name the depths at which its binders stand, the innermost first. -/
structure DepthTables where
  left : OrderedMap String (List Nat)
  right : OrderedMap String (List Nat)

/-- The depths listed under a name; none if the name is not in the table. -/
def depthsOf (table : OrderedMap String (List Nat)) (x : String) : List Nat :=
  (table.get? x).getD []

namespace DepthTables

/-- The tables outside all binders. -/
def empty : DepthTables := ⟨.empty, .empty⟩

/-- Enters a binder of `p` in the first term and one of `q` in the second, both at `depth`. -/
def enter (tables : DepthTables) (p q : String) (depth : Nat) : DepthTables :=
  ⟨tables.left.put p (depth :: depthsOf tables.left p),
    tables.right.put q (depth :: depthsOf tables.right q)⟩

/-- Leaves the innermost binder of `p` in the first term and that of `q` in the second. -/
def leave (tables : DepthTables) (p q : String) : DepthTables :=
  ⟨tables.left.put p (depthsOf tables.left p).tail, tables.right.put q (depthsOf tables.right q).tail⟩

/-- Whether the innermost binders of `x` and `y` stand at one depth, or both are free and alike. -/
def sameDepth (tables : DepthTables) (x y : String) : Bool :=
  match depthsOf tables.left x, depthsOf tables.right y with
  | d :: _, e :: _ => d == e
  | [], [] => x == y
  | _, _ => false

end DepthTables

/-- Compares two terms under `depth` pairs of binders, and returns the tables as they then are. -/
def compareIn [DecidableEq κ] :
    Term κ → Term κ → (depth : Nat) → DepthTables → Bool × DepthTables
  | var x, t, _, tables =>
    match t.ungroup with
    | var y => (tables.sameDepth x y, tables)
    | _ => (false, tables)
  | lam p b, t, depth, tables =>
    match t.ungroup with
    | lam q c =>
      let (answer, tables') := b.compareIn c (depth + 1) (tables.enter p q depth)
      (answer, tables'.leave p q)
    | _ => (false, tables)
  | app f a, t, depth, tables =>
    match t.ungroup with
    | app g c =>
      match f.compareIn g depth tables with
      | (true, tables') => a.compareIn c depth tables'
      | (false, tables') => (false, tables')
    | _ => (false, tables)
  | group s, t, depth, tables => s.compareIn t depth tables
  | bind n s, t, depth, tables =>
    match t.ungroup with
    | bind m u => if n = m then s.compareIn u depth tables else (false, tables)
    | _ => (false, tables)
  | metavar n _, t, _, tables =>
    match t.ungroup with
    | metavar m _ => (n == m, tables)
    | _ => (false, tables)
  | const c, t, _, tables =>
    match t.ungroup with
    | const d => (c == d, tables)
    | _ => (false, tables)

/-! ## What the tables list -/

/-- The depths of the binders of `x` among the binders `binders`, innermost first. -/
def bindersOf (x : String) : List String → List Nat
  | [] => []
  | y :: ys => if y = x then ys.length :: bindersOf x ys else bindersOf x ys

/-- A name in a list of binders has a place in it. -/
theorem placeOf_lt {x : String} {binders : List String} {i : Nat} (h : placeOf x binders = some i) :
    i < binders.length := by
  induction binders generalizing i with
  | nil => cases h
  | cons y ys ih =>
    rw [placeOf] at h
    split at h
    · cases h
      exact Nat.succ_pos _
    · obtain ⟨j, hj, rfl⟩ := Option.map_eq_some_iff.1 h
      exact Nat.succ_lt_succ (ih hj)

/-- The innermost binder of a name is the one at its place. -/
theorem head?_bindersOf (x : String) (binders : List String) :
    (bindersOf x binders).head? = (placeOf x binders).map (binders.length - 1 - ·) := by
  induction binders with
  | nil => rfl
  | cons y ys ih =>
    rw [bindersOf, placeOf]
    split
    · rfl
    · rw [ih, Option.map_map]
      congr 1
      funext i
      simp only [Function.comp_apply, List.length_cons]
      omega

/-- The table lists for every name the depths of its binders among the binders `binders`. -/
def Lists (table : OrderedMap String (List Nat)) (binders : List String) : Prop :=
  ∀ x, depthsOf table x = bindersOf x binders

variable {table : OrderedMap String (List Nat)} {names : List String} {p q : String}

/-- After a name's depths are put in, they are listed under it and the rest is as before. -/
theorem depthsOf_put (x : String) (ds : List Nat) :
    depthsOf (table.put p ds) x = if p = x then ds else depthsOf table x := by
  rw [depthsOf, OrderedMap.get?_put]
  split <;> rfl

/-- A binder that is entered is listed. -/
theorem Lists.enter (h : Lists table names) :
    Lists (table.put p (names.length :: depthsOf table p)) (p :: names) := by
  intro x
  rw [depthsOf_put, bindersOf]
  split
  · next hp => rw [h, hp]
  · exact h x

/-- A binder that is left is listed no more. -/
theorem Lists.leave (h : Lists table (p :: names)) :
    Lists (table.put p (depthsOf table p).tail) names := by
  intro x
  have hx := h x
  rw [bindersOf] at hx
  rw [depthsOf_put]
  split
  · next hp =>
    subst hp
    rw [hx, if_pos rfl, List.tail_cons]
  · next hp => rwa [if_neg hp] at hx

namespace DepthTables

variable {tables : DepthTables} {binders : List (String × String)}

/-- The tables list the pairs of binders around the place reached. -/
structure Track (tables : DepthTables) (binders : List (String × String)) : Prop where
  left : Lists tables.left (binders.map Prod.fst)
  right : Lists tables.right (binders.map Prod.snd)

/-- The tables outside all binders list none. -/
theorem track_empty : empty.Track [] := ⟨fun _ => rfl, fun _ => rfl⟩

/-- The tables keep track when a pair of binders is entered. -/
theorem Track.enter (h : tables.Track binders) :
    (tables.enter p q binders.length).Track ((p, q) :: binders) := by
  have hleft := h.left.enter (p := p)
  have hright := h.right.enter (p := q)
  rw [List.length_map] at hleft hright
  exact ⟨hleft, hright⟩

/-- The tables keep track when a pair of binders is left. -/
theorem Track.leave (h : tables.Track ((p, q) :: binders)) : (tables.leave p q).Track binders :=
  ⟨h.left.leave, h.right.leave⟩

/-- The innermost binders of two variables stand at one depth if they have one place. -/
theorem sameDepth_eq (h : tables.Track binders) (x y : String) :
    tables.sameDepth x y = sameVariable binders x y := by
  have hx := head?_bindersOf x (binders.map Prod.fst)
  have hy := head?_bindersOf y (binders.map Prod.snd)
  rw [← h.left, List.length_map] at hx
  rw [← h.right, List.length_map] at hy
  rw [sameDepth, sameVariable]
  cases hi : placeOf x (binders.map Prod.fst) with
  | none =>
    rw [hi, Option.map_none, List.head?_eq_none_iff] at hx
    cases hj : placeOf y (binders.map Prod.snd) with
    | none =>
      rw [hj, Option.map_none, List.head?_eq_none_iff] at hy
      rw [hx, hy]
    | some j =>
      rw [hj, Option.map_some, List.head?_eq_some_iff] at hy
      obtain ⟨ds, hy⟩ := hy
      rw [hx, hy]
  | some i =>
    rw [hi, Option.map_some, List.head?_eq_some_iff] at hx
    obtain ⟨ds, hx⟩ := hx
    cases hj : placeOf y (binders.map Prod.snd) with
    | none =>
      rw [hj, Option.map_none, List.head?_eq_none_iff] at hy
      rw [hx, hy]
    | some j =>
      rw [hj, Option.map_some, List.head?_eq_some_iff] at hy
      obtain ⟨es, hy⟩ := hy
      have hilt := placeOf_lt hi
      have hjlt := placeOf_lt hj
      rw [List.length_map] at hilt hjlt
      have hiff : binders.length - 1 - i = binders.length - 1 - j ↔ i = j := by omega
      rw [hx, hy]
      simp only [Bool.beq_eq_decide_eq, hiff]

end DepthTables

variable [DecidableEq κ]

/-- Tables that track the binders around two terms lead to the right answer, and they track these
binders again after it. -/
theorem compareIn_eq (s t : Term κ) {tables : DepthTables} {binders : List (String × String)}
    (h : tables.Track binders) :
    (s.compareIn t binders.length tables).1 = alphaEqualsUnder binders s t ∧
      (s.compareIn t binders.length tables).2.Track binders := by
  induction s generalizing t tables binders with
  | var x =>
    rw [compareIn, alphaEqualsUnder]
    cases t.ungroup with
    | var y => exact ⟨DepthTables.sameDepth_eq h x y, h⟩
    | lam | app | group | bind | metavar | const => exact ⟨rfl, h⟩
  | lam p b ih =>
    rw [compareIn, alphaEqualsUnder]
    cases t.ungroup with
    | lam q c =>
      obtain ⟨hanswer, htrack⟩ := ih c (h.enter (p := p) (q := q))
      exact ⟨hanswer, htrack.leave⟩
    | var | app | group | bind | metavar | const => exact ⟨rfl, h⟩
  | app f a ihf iha =>
    rw [compareIn, alphaEqualsUnder]
    cases t.ungroup with
    | app g c =>
      obtain ⟨hanswer, htrack⟩ := ihf g h
      cases hf : f.compareIn g binders.length tables with
      | mk answer tables' =>
        rw [hf] at hanswer htrack
        dsimp only
        rw [hf, ← hanswer]
        cases answer with
        | true => exact iha c htrack
        | false => exact ⟨rfl, htrack⟩
    | var | lam | group | bind | metavar | const => exact ⟨rfl, h⟩
  | group s ih => exact ih t h
  | bind n s ih =>
    rw [compareIn, alphaEqualsUnder]
    cases t.ungroup with
    | bind m u =>
      dsimp only
      by_cases hn : n = m
      · rw [if_pos hn, beq_iff_eq.2 hn, Bool.true_and]
        exact ih u h
      · rw [if_neg hn, beq_eq_false_iff_ne.2 hn, Bool.false_and]
        exact ⟨rfl, h⟩
    | var | lam | app | group | metavar | const => exact ⟨rfl, h⟩
  | metavar n l =>
    rw [compareIn, alphaEqualsUnder]
    cases t.ungroup with
    | var | lam | app | group | bind | metavar | const => exact ⟨rfl, h⟩
  | const c =>
    rw [compareIn, alphaEqualsUnder]
    cases t.ungroup with
    | var | lam | app | group | bind | metavar | const => exact ⟨rfl, h⟩

/-- The comparison with tables, begun outside all binders, decides α-equivalence. -/
theorem compareIn_empty (s t : Term κ) : (s.compareIn t 0 .empty).1 = s.alphaEquals t :=
  (compareIn_eq s t DepthTables.track_empty).1

/-! ## An equivalence that the constructors respect -/

/-- A relation between terms that every constructor with parts respects. -/
structure Congruence (r : Term κ → Term κ → Prop) : Prop where
  lam {b c : Term κ} (p : String) : r b c → r (lam p b) (lam p c)
  app {f g a c : Term κ} : r f g → r a c → r (app f a) (app g c)
  group {s t : Term κ} : r s t → r (group s) (group t)
  bind {s t : Term κ} (n : String) : r s t → r (bind n s) (bind n t)

omit [DecidableEq κ] in
/-- In the nameless form of an abstraction its parameter, free in the body, has become index 0. -/
theorem nameless_lam (p : String) (b : Term κ) :
    (lam p b).nameless = .lam (b.nameless.substFree p (.bound 0)) := by
  have hscope : underBinder p (.free : String → Nameless κ) = Function.update .free p (.bound 0) := by
    funext x
    rcases eq_or_ne x p with rfl | hx
    · simp
    · simp [hx, Nameless.shift, Nameless.rename]
  rw [nameless_eq_readIn, readIn, hscope, readIn_update_free]

/-- α-equivalence is an equivalence relation. -/
theorem alphaEquals_equivalence : Equivalence fun s t : Term κ => s.alphaEquals t = true where
  refl _ := alphaEquals_iff_nameless.2 rfl
  symm h := alphaEquals_iff_nameless.2 (alphaEquals_iff_nameless.1 h).symm
  trans h h' :=
    alphaEquals_iff_nameless.2 ((alphaEquals_iff_nameless.1 h).trans (alphaEquals_iff_nameless.1 h'))

/-- All constructors respect α-equivalence. -/
theorem alphaEquals_congruence : Congruence fun s t : Term κ => s.alphaEquals t = true where
  lam p h := by
    rw [alphaEquals_iff_nameless] at h ⊢
    rw [nameless_lam, nameless_lam, h]
  app hf ha := by
    rw [alphaEquals_iff_nameless, nameless_eq_readIn, nameless_eq_readIn] at hf ha ⊢
    rw [readIn, readIn, hf, ha]
  group h := by
    rw [alphaEquals_iff_nameless] at h ⊢
    exact h
  bind n h := by
    rw [alphaEquals_iff_nameless, nameless_eq_readIn, nameless_eq_readIn] at h ⊢
    rw [readIn, readIn, h]

/-- α-equivalence, also where it is found with tables of depths, is equality of nameless forms. It is
an equivalence relation that all constructors respect. -/
theorem alphaEquals_decides :
    (∀ s t : Term κ, s.alphaEquals t = true ↔ s.nameless = t.nameless) ∧
      (∀ s t : Term κ, (s.compareIn t 0 .empty).1 = s.alphaEquals t) ∧
      (Equivalence fun s t : Term κ => s.alphaEquals t = true) ∧
      Congruence fun s t : Term κ => s.alphaEquals t = true :=
  ⟨fun _ _ => alphaEquals_iff_nameless, compareIn_empty, alphaEquals_equivalence,
    alphaEquals_congruence⟩

/-- A name that is bound in the function is free again in the argument. -/
example :
    (app (lam "x" (var "x")) (var "x") : Expr).alphaEquals (app (lam "y" (var "y")) (var "y")) = false :=
  rfl

end NormalOrder.Term
