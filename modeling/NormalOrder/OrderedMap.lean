/-!
# Maps that remember the order of their keys

A finite map whose keys are listed in the order in which they were first put in. Putting a new
value under a key that is present keeps the key's place (`keys_put_of_mem`); a key that is absent
goes to the end (`keys_put_of_not_mem`). No key is listed twice, which the type records.
-/

namespace NormalOrder

/-- A map from `α` to `β` with its keys in order of arrival. -/
structure OrderedMap (α β : Type) where
  /-- The keys with their values, oldest key first. -/
  entries : List (α × β)
  /-- No key is listed twice. -/
  nodup : (entries.map Prod.fst).Nodup

namespace OrderedMap

variable {α β : Type}

/-- The map without keys. -/
def empty : OrderedMap α β := ⟨[], List.nodup_nil⟩

instance : Inhabited (OrderedMap α β) := ⟨empty⟩

/-- The keys, oldest first. -/
def keys (m : OrderedMap α β) : List α := m.entries.map Prod.fst

variable [DecidableEq α]

/-- The value of `k` in a list of pairs: that of the first pair whose key is `k`. -/
def valueIn (k : α) : List (α × β) → Option β
  | [] => none
  | (k', v) :: rest => if k' = k then some v else valueIn k rest

/-- The value under `k`. -/
def get? (m : OrderedMap α β) (k : α) : Option β := valueIn k m.entries

/-- Whether `k` has a value. -/
def contains (m : OrderedMap α β) (k : α) : Bool := (m.get? k).isSome

/-- Replaces the value of `k` in a list of pairs. -/
def replaceIn (k : α) (v : β) (es : List (α × β)) : List (α × β) :=
  es.map fun e => if e.1 = k then (k, v) else e

theorem map_fst_replaceIn (k : α) (v : β) (es : List (α × β)) :
    (replaceIn k v es).map Prod.fst = es.map Prod.fst := by
  induction es with
  | nil => rfl
  | cons e es ih =>
    by_cases h : e.1 = k
    · simpa [replaceIn, h] using ih
    · simpa [replaceIn, h] using ih

/-- Puts `v` under `k`: in its place if `k` is present, else at the end. -/
def put (m : OrderedMap α β) (k : α) (v : β) : OrderedMap α β :=
  if h : k ∈ m.keys then
    ⟨replaceIn k v m.entries, by rw [map_fst_replaceIn]; exact m.nodup⟩
  else
    ⟨m.entries ++ [(k, v)], by
      rw [List.map_append]
      refine List.nodup_append.2 ⟨m.nodup, by simp, ?_⟩
      intro a ha b hb hab
      simp only [List.map_cons, List.map_nil, List.mem_singleton] at hb
      exact h (hb ▸ hab ▸ ha)⟩

/-- Takes `k` and its value out. -/
def erase (m : OrderedMap α β) (k : α) : OrderedMap α β :=
  ⟨m.entries.filter fun e => decide (e.1 ≠ k), by
    exact m.nodup.sublist (List.filter_sublist.map _)⟩

/-- Applies `f` to every value and keeps the keys and their order. -/
def mapValues {γ : Type} (m : OrderedMap α β) (f : β → γ) : OrderedMap α γ :=
  ⟨m.entries.map fun e => (e.1, f e.2), by
    have h : (m.entries.map fun e => (e.1, f e.2)).map Prod.fst = m.entries.map Prod.fst := by
      simp
    rw [h]; exact m.nodup⟩

/-- A key that is present keeps its place. -/
theorem keys_put_of_mem {m : OrderedMap α β} {k : α} (h : k ∈ m.keys) (v : β) :
    (m.put k v).keys = m.keys := by
  rw [put, dif_pos h]
  exact map_fst_replaceIn k v m.entries

/-- A key that is absent goes to the end. -/
theorem keys_put_of_not_mem {m : OrderedMap α β} {k : α} (h : k ∉ m.keys) (v : β) :
    (m.put k v).keys = m.keys ++ [k] := by
  rw [put, dif_neg h]
  simp [keys]

theorem valueIn_replaceIn (k k' : α) (v : β) (es : List (α × β)) :
    valueIn k' (replaceIn k v es)
      = if k = k' ∧ k ∈ es.map Prod.fst then some v else valueIn k' es := by
  induction es with
  | nil => simp [replaceIn, valueIn]
  | cons e es ih =>
    obtain ⟨a, b⟩ := e
    rw [replaceIn] at ih
    by_cases ha : a = k
    · subst ha
      by_cases hk : a = k' <;> simp_all [replaceIn, valueIn]
    · by_cases hk : k = k'
      · subst hk
        simp only [replaceIn, List.map_cons, valueIn, ha, if_false, ih, List.mem_cons,
          Ne.symm ha, false_or]
      · by_cases hk' : a = k'
        · subst hk'
          simp [replaceIn, valueIn, ha, hk]
        · simp [replaceIn, valueIn, ha, hk, hk', ih]

theorem valueIn_append_of_not_mem {k : α} {es : List (α × β)} (h : k ∉ es.map Prod.fst)
    (es' : List (α × β)) : valueIn k (es ++ es') = valueIn k es' := by
  induction es with
  | nil => rfl
  | cons e es ih =>
    obtain ⟨a, b⟩ := e
    simp only [List.map_cons, List.mem_cons, not_or] at h
    simp [valueIn, Ne.symm h.1, ih h.2]

theorem valueIn_append_of_ne {k k' : α} (h : k' ≠ k) (v : β) (es : List (α × β)) :
    valueIn k (es ++ [(k', v)]) = valueIn k es := by
  induction es with
  | nil => simp [valueIn, h]
  | cons e es ih => simp [valueIn, ih]

/-- What is put under a key is found there, and nothing else changes. -/
theorem get?_put (m : OrderedMap α β) (k k' : α) (v : β) :
    (m.put k v).get? k' = if k = k' then some v else m.get? k' := by
  by_cases h : k ∈ m.keys
  · have hm : k ∈ m.entries.map Prod.fst := h
    rw [put, dif_pos h]
    simp only [get?, valueIn_replaceIn, hm, and_true]
  · rw [put, dif_neg h]
    by_cases hk : k = k'
    · subst hk
      simp [get?, valueIn_append_of_not_mem h, valueIn]
    · simp [get?, hk, valueIn_append_of_ne hk]

end OrderedMap

end NormalOrder
