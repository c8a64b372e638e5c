import NormalOrder.OrderedMap

/-!
# What a map lists

Maps are told apart by what they list (`eq_of_entries`). A key has the value that it is listed with
(`get?_of_mem_entries`, `mem_entries_of_get?`), and a pair with a key that is new is listed last
(`entries_put`).
-/

namespace NormalOrder.OrderedMap

variable {α β : Type}

/-- Maps that list the same pairs are the same. -/
theorem eq_of_entries {m m' : OrderedMap α β} (h : m.entries = m'.entries) : m = m' := by
  cases m
  cases m'
  cases h
  rfl

variable [DecidableEq α] {m : OrderedMap α β} {k : α} {v : β}

/-- A key has the value that it is listed with. -/
theorem get?_of_mem_entries (h : (k, v) ∈ m.entries) : m.get? k = some v := by
  have hin : ∀ es : List (α × β), (es.map Prod.fst).Nodup → (k, v) ∈ es →
      valueIn k es = some v := by
    intro es
    induction es with
    | nil => exact fun _ h => nomatch h
    | cons e es ih =>
      intro hnodup h
      obtain ⟨hne, hnodup'⟩ := List.nodup_cons.1 hnodup
      rcases List.mem_cons.1 h with rfl | h
      · exact if_pos rfl
      · have hne' : e.1 ≠ k := fun heq => hne (heq ▸ List.mem_map_of_mem h)
        rw [valueIn, if_neg hne']
        exact ih hnodup' h
  exact hin m.entries m.nodup h

/-- A key that has a value is listed with it. -/
theorem mem_entries_of_get? (h : m.get? k = some v) : (k, v) ∈ m.entries := by
  have hin : ∀ es : List (α × β), valueIn k es = some v → (k, v) ∈ es := by
    intro es
    induction es with
    | nil => exact fun h => nomatch h
    | cons e es ih =>
      intro h
      rw [valueIn] at h
      split at h
      · next hk =>
        cases h
        exact hk ▸ .head _
      · exact .tail _ (ih h)
  exact hin m.entries h

/-- A pair with a new key is listed after the others. -/
theorem entries_put (h : k ∉ m.keys) (v : β) : (m.put k v).entries = m.entries ++ [(k, v)] := by
  rw [put, dif_neg h]

/-- After a pair is put in, the map lists it and, with other keys, what it listed before. -/
theorem mem_entries_put {e : α × β} (h : e ∈ (m.put k v).entries) :
    e = (k, v) ∨ (e ∈ m.entries ∧ e.1 ≠ k) := by
  by_cases hk : k ∈ m.keys
  · rw [put, dif_pos hk] at h
    obtain ⟨e', he', rfl⟩ := List.mem_map.1 h
    split
    · exact .inl rfl
    · next hne => exact .inr ⟨he', hne⟩
  · rw [entries_put hk] at h
    rcases List.mem_append.1 h with he | he
    · exact .inr ⟨he, fun hek => hk (hek ▸ List.mem_map_of_mem he)⟩
    · exact .inl (List.mem_singleton.1 he)

/-- A key that is put into the empty map and taken out again leaves it empty. -/
theorem erase_put_empty (k : α) (v : β) : ((empty : OrderedMap α β).put k v).erase k = empty := by
  have hnew : k ∉ (empty : OrderedMap α β).keys := List.not_mem_nil
  refine eq_of_entries ?_
  show (empty.put k v).entries.filter (fun e => decide (e.1 ≠ k)) = []
  rw [entries_put hnew]
  simp [empty]

end NormalOrder.OrderedMap
