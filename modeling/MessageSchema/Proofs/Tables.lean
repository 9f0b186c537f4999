/-
  More about tables, and the measure of walks that list every key once.

  * `unlisted keys seen` counts the keys that a walk has not listed yet; it
    bounds the depth that the walk still needs.
-/
import MessageSchema.Table
import Mathlib.Data.List.Nodup
import Mathlib.Data.List.Perm.Subperm

namespace MessageSchema

open List

namespace Table

variable {α β : Type} {t : Table α} {k k' : String} {v : α} {key : β → String} {val : β → α}
  {xs : List β} {x : β} {select : α → Option β}

theorem ext_entries {s : Table α} (h : s.entries = t.entries) : s = t := by
  cases s; cases t; cases h; rfl

theorem contains_iff (t : Table α) (k : String) : t.contains k = true ↔ ∃ v, t.find? k = some v :=
  Option.isSome_iff_exists

theorem contains_of_find? (h : t.find? k = some v) : t.contains k = true :=
  (t.contains_iff k).2 ⟨v, h⟩

theorem contains_eq_false_iff (t : Table α) (k : String) :
    t.contains k = false ↔ t.find? k = none := by
  unfold contains
  cases t.find? k <;> simp

theorem mem_keys_of_find? (h : t.find? k = some v) : k ∈ t.keys :=
  (t.mem_keys_iff k).2 (contains_of_find? h)

theorem mem_values_iff (t : Table α) (v : α) : v ∈ t.values ↔ ∃ k, t.find? k = some v := by
  simp only [values, mem_map]
  constructor
  · rintro ⟨⟨k, w⟩, h, rfl⟩; exact ⟨k, (t.mem_entries_iff k w).1 h⟩
  · rintro ⟨k, h⟩; exact ⟨(k, v), (t.mem_entries_iff k v).2 h, rfl⟩

@[simp] theorem length_keys (t : Table α) : t.keys.length = t.size := by simp [keys, size]

theorem insertEntry_of_not_mem {es : List (String × α)} (h : k ∉ es.map (·.1)) (v : α) :
    insertEntry k v es = es ++ [(k, v)] := by
  induction es with
  | nil => rfl
  | cons e es ih =>
    simp only [map_cons, mem_cons, not_or] at h
    rw [insertEntry, if_neg (Ne.symm h.1), ih h.2, cons_append]

theorem insertEntry_map (g : α → β) (k : String) (v : α) (es : List (String × α)) :
    insertEntry k (g v) (es.map fun e => (e.1, g e.2)) = (insertEntry k v es).map fun e =>
      (e.1, g e.2) := by
  induction es with
  | nil => rfl
  | cons e es ih =>
    rw [map_cons, insertEntry, insertEntry]
    split
    · rfl
    · rw [map_cons, ih]

theorem find?_insert_eq_none_iff : (t.insert k v).find? k' = none ↔ k' ≠ k ∧ t.find? k' = none := by
  rw [find?_insert]
  by_cases h : k' = k <;> simp [h]

theorem contains_insert_iff :
    (t.insert k v).contains k' = true ↔ k' = k ∨ t.contains k' = true := by
  rw [contains, contains, find?_insert]
  by_cases h : k' = k <;> simp [h]

theorem entries_insert_of_find?_eq_none (h : t.find? k = none) (v : α) :
    (t.insert k v).entries = t.entries ++ [(k, v)] := by
  refine insertEntry_of_not_mem (fun hk => ?_) v
  have hcontains := (t.mem_keys_iff k).1 hk
  simp [contains, h] at hcontains

/-! ## Writing lists into tables -/

/-- What is found comes from the list or was there before. -/
theorem find?_foldl_insert
    (h : (xs.foldl (fun t x => t.insert (key x) (val x)) t).find? k = some v) :
    (∃ x ∈ xs, key x = k ∧ val x = v) ∨ t.find? k = some v := by
  induction xs generalizing t with
  | nil => exact .inr h
  | cons x xs ih =>
    rcases ih h with ⟨y, hy, hk, hv⟩ | h
    · exact .inl ⟨y, mem_cons_of_mem _ hy, hk, hv⟩
    · rw [find?_insert] at h
      split at h
      · next hk => exact .inl ⟨x, mem_cons_self, hk.symm, by simpa using h⟩
      · exact .inr h

theorem contains_foldl_insert (h : (∃ x ∈ xs, key x = k) ∨ t.contains k = true) :
    (xs.foldl (fun t x => t.insert (key x) (val x)) t).contains k = true := by
  induction xs generalizing t with
  | nil => simpa using h
  | cons x xs ih =>
    refine ih ?_
    by_cases hk : k = key x
    · exact .inr (by simp [contains, hk])
    · rcases h with ⟨y, hy, rfl⟩ | h
      · rcases mem_cons.1 hy with rfl | hy
        · exact absurd rfl hk
        · exact .inl ⟨y, hy, rfl⟩
      · exact .inr (by rwa [contains, find?_insert, if_neg hk])

/-- A value is found if no other is written under its key. -/
theorem find?_foldl_insert_of_mem (hx : x ∈ xs) (h : ∀ y ∈ xs, key y = key x → val y = val x) :
    (xs.foldl (fun t x => t.insert (key x) (val x)) t).find? (key x) = some (val x) := by
  induction xs generalizing t x with
  | nil => cases hx
  | cons y ys ih =>
    rw [foldl_cons]
    by_cases hlater : ∃ z ∈ ys, key z = key x
    · obtain ⟨z, hz, hkey⟩ := hlater
      have hval := h z (mem_cons_of_mem _ hz) hkey
      rw [← hkey, ← hval]
      refine ih hz fun y' hy' hkey' => ?_
      rw [h y' (mem_cons_of_mem _ hy') (hkey'.trans hkey), hval]
    · -- nothing is written under the key any more
      have hxy : x = y := (mem_cons.1 hx).resolve_right fun hx => hlater ⟨x, hx, rfl⟩
      subst hxy
      have hcontains :
        (ys.foldl (fun t x => t.insert (key x) (val x)) (t.insert (key x) (val x))).contains
        (key x) = true := contains_foldl_insert (.inr (contains_insert_iff.2 (.inl rfl)))
      obtain ⟨v, hv⟩ := (contains_iff _ _).1 hcontains
      rcases find?_foldl_insert hv with ⟨z, hz, hkey, -⟩ | hfound
      · exact absurd ⟨z, hz, hkey⟩ hlater
      · rw [hv, ← hfound, find?_insert_self]

/-- Writing what a table holds changes nothing. -/
theorem insert_of_find? (h : t.find? k = some v) : t.insert k v = t := by
  have hentry : ∀ es : List (String × α), es.lookup k = some v → insertEntry k v es = es := by
    intro es
    induction es with
    | nil => intro h; cases h
    | cons e es ih =>
      intro h
      rw [insertEntry]
      rw [lookup_cons] at h
      by_cases hk : e.1 = k
      · simp only [hk, BEq.rfl, Option.some.injEq] at h
        rw [if_pos hk, ← hk, ← h]
      · have hne : (k == e.1) = false := by simpa using Ne.symm hk
        rw [hne] at h
        rw [if_neg hk, ih h]
  exact ext_entries (hentry t.entries h)

/-- **Writing a list into a table again changes nothing**, if no two values are written
    under one key. -/
theorem foldl_insert_again (h : ∀ x ∈ xs, ∀ y ∈ xs, key x = key y → val x = val y) :
    xs.foldl (fun t x => t.insert (key x) (val x))
      (xs.foldl (fun t x => t.insert (key x) (val x)) t) =
      xs.foldl (fun t x => t.insert (key x) (val x)) t := by
  refine foldlRecOn (motive := fun u => u = xs.foldl (fun t x => t.insert (key x) (val x)) t) _ _
    rfl fun u hu x hx => ?_
  refine (insert_of_find? ?_).trans hu
  rw [hu]
  exact find?_foldl_insert_of_mem hx fun y hy hkey => h y hy x hx hkey

/-- What a table holds for its keys, as far as `select` takes it. -/
def selected (select : α → Option β) (t : Table α) : List (String × β) :=
  t.entries.filterMap fun e => (select e.2).map fun x => (e.1, x)

theorem mem_selected_iff :
    (k, x) ∈ t.selected select ↔ ∃ v, t.find? k = some v ∧ select v = some x := by
  simp only [selected, mem_filterMap, Option.map_eq_some_iff, Prod.mk.injEq]
  constructor
  · rintro ⟨⟨k', v⟩, hmem, x', hx, rfl, rfl⟩
    exact ⟨v, (t.mem_entries_iff k' v).1 hmem, hx⟩
  · rintro ⟨v, hv, hx⟩
    exact ⟨(k, v), (t.mem_entries_iff k v).2 hv, x, hx, rfl, rfl⟩

/-- What has been selected is written under the key that it had. -/
theorem find?_foldl_selected {γ : Type} {g : String → β → γ} (hv : t.find? k = some v)
    (hx : select v = some x) :
    ((t.selected select).foldl (fun u e => u.insert e.1 (g e.1 e.2)) empty).find? k =
      some (g k x) := by
  have hmem : (k, x) ∈ t.selected select := mem_selected_iff.2 ⟨v, hv, hx⟩
  refine find?_foldl_insert_of_mem hmem fun e he hkey => ?_
  obtain ⟨v', hv', hx'⟩ := mem_selected_iff.1 he
  simp only at hkey
  rw [hkey, hv] at hv'
  cases hv'
  rw [hx] at hx'
  cases hx'
  rw [hkey]

/-- Written with distinct keys, a list becomes the entries of the table. -/
theorem entries_foldl_insert (hxs : (xs.map key).Nodup) (ht : ∀ x ∈ xs, t.find? (key x) = none) :
    (xs.foldl (fun t x => t.insert (key x) (val x)) t).entries = t.entries ++ xs.map fun x =>
      (key x, val x) := by
  induction xs generalizing t with
  | nil => simp
  | cons x xs ih =>
    simp only [map_cons, nodup_cons] at hxs
    rw [foldl_cons, ih hxs.2, entries_insert_of_find?_eq_none (ht x mem_cons_self)]
    · simp
    · intro y hy
      have hne : key y ≠ key x := fun h => hxs.1 (h ▸ mem_map_of_mem hy)
      rw [find?_insert_of_ne _ hne]
      exact ht y (mem_cons_of_mem _ hy)

theorem entries_foldl_insert_map {γ : Type} (g : α → γ) (xs : List β) {u : Table γ}
    (h : u.entries = t.entries.map fun e => (e.1, g e.2)) :
    (xs.foldl (fun t x => t.insert (key x) (g (val x))) u).entries =
      (xs.foldl (fun t x => t.insert (key x) (val x)) t).entries.map fun e => (e.1, g e.2) := by
  induction xs generalizing t u with
  | nil => exact h
  | cons x xs ih => exact ih (by simp only [Table.insert, h, insertEntry_map])

end Table

/-! ## Keys not listed yet -/

/-- The number of keys that are not listed. -/
def unlisted (keys seen : List String) : Nat := (keys.filter fun k => !seen.contains k).length

variable {keys seen seen' : List String}

theorem unlisted_le (keys seen : List String) : unlisted keys seen ≤ keys.length :=
  length_filter_le _ _

theorem unlisted_keys_le {α : Type} (t : Table α) (seen : List String) :
    unlisted t.keys seen ≤ t.size := by
  rw [← t.length_keys]
  exact unlisted_le t.keys seen

theorem unlisted_mono (h : seen ⊆ seen') : unlisted keys seen' ≤ unlisted keys seen := by
  refine Sublist.length_le (monotone_filter_right _ ?_)
  intro k hk
  simp only [Bool.not_eq_true', contains_eq_mem, decide_eq_false_iff_not] at hk ⊢
  exact fun hm => hk (h hm)

/-- Listing one more key leaves fewer. -/
theorem unlisted_lt (h : seen ⊆ seen') {k : String} (hk : k ∈ keys)
    (hs : k ∉ seen) (hs' : k ∈ seen') : unlisted keys seen' < unlisted keys seen := by
  unfold unlisted
  induction keys with
  | nil => cases hk
  | cons l keys ih =>
    have hle : unlisted keys seen' ≤ unlisted keys seen := unlisted_mono h
    simp only [unlisted] at hle
    by_cases hl : l = k
    · subst hl
      simp only [filter_cons, contains_eq_mem, hs, hs', decide_true, decide_false,
        Bool.not_true, Bool.not_false, Bool.false_eq_true, if_false, if_true, length_cons] at hle ⊢
      omega
    · have ih := ih ((mem_cons.1 hk).resolve_left (Ne.symm hl))
      by_cases hl1 : l ∈ seen
      · have hl2 := h hl1
        simpa [filter_cons, hl1, hl2] using ih
      · by_cases hl2 : l ∈ seen'
        · simp only [filter_cons, contains_eq_mem, hl1, hl2, decide_true, decide_false,
            Bool.not_true, Bool.not_false, Bool.false_eq_true, if_false, if_true,
            length_cons] at ih ⊢
          omega
        · simpa [filter_cons, hl1, hl2] using ih

end MessageSchema
