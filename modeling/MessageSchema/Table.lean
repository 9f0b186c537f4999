/-
  Tables: finite maps that keep the order in which their keys first arrived.

  Writing to a present key replaces its value in place; a new key goes to the
  end.  No key comes twice.

  * `find?_insert` and `find?_erase` say what is found after a change;
  * `keys_insert_of_mem` and `keys_insert_of_not_mem` say where a key stands;
  * `mem_entries_iff`: the entries are exactly what is found.
-/

namespace MessageSchema

/-- Values by keys that are texts, in the order of first insertion. -/
structure Table (α : Type) where
  entries : List (String × α)
  nodup : (entries.map (·.1)).Nodup
  deriving DecidableEq, Repr

namespace Table

variable {α : Type}

/-- Puts an entry in the place of its key, or last. -/
def insertEntry (k : String) (v : α) : List (String × α) → List (String × α)
  | [] => [(k, v)]
  | e :: es => if e.1 = k then (k, v) :: es else e :: insertEntry k v es

variable {k k' : String} {es : List (String × α)}

theorem keys_insertEntry_of_mem (v : α) (h : k ∈ es.map (·.1)) :
    (insertEntry k v es).map (·.1) = es.map (·.1) := by
  induction es with
  | nil => simp at h
  | cons e es ih =>
    by_cases he : e.1 = k
    · simp [insertEntry, he]
    · have h' : k ∈ es.map (·.1) := by
        rcases List.mem_cons.1 h with h | h
        · exact absurd h.symm he
        · exact h
      simp [insertEntry, he, ih h']

theorem keys_insertEntry_of_not_mem (v : α)
    (h : k ∉ es.map (·.1)) : (insertEntry k v es).map (·.1) = es.map (·.1) ++ [k] := by
  induction es with
  | nil => simp [insertEntry]
  | cons e es ih =>
    simp only [List.map_cons, List.mem_cons, not_or] at h
    have he : e.1 ≠ k := fun he => h.1 he.symm
    simp [insertEntry, he, ih h.2]

theorem nodup_insertEntry (k : String) (v : α) (h : (es.map (·.1)).Nodup) :
    ((insertEntry k v es).map (·.1)).Nodup := by
  by_cases hk : k ∈ es.map (·.1)
  · rw [keys_insertEntry_of_mem v hk]; exact h
  · rw [keys_insertEntry_of_not_mem v hk, List.nodup_append]
    refine ⟨h, by simp, ?_⟩
    intro a ha b hb hab
    rw [List.mem_singleton.1 hb] at hab
    exact hk (hab ▸ ha)

/-- The table without entries. -/
def empty : Table α := ⟨[], List.nodup_nil⟩

instance : EmptyCollection (Table α) := ⟨empty⟩

instance : Inhabited (Table α) := ⟨empty⟩

/-- The keys, in their order. -/
def keys (t : Table α) : List String := t.entries.map (·.1)

/-- The values, in the order of their keys. -/
def values (t : Table α) : List α := t.entries.map (·.2)

/-- The value of a key. -/
def find? (t : Table α) (k : String) : Option α := t.entries.lookup k

/-- Whether a key has a value. -/
def contains (t : Table α) (k : String) : Bool := (t.find? k).isSome

/-- Gives a key a value: in place if the key is present, at the end otherwise. -/
def insert (t : Table α) (k : String) (v : α) : Table α :=
  ⟨insertEntry k v t.entries, nodup_insertEntry k v t.nodup⟩

/-- Inserts a value unless its key has one. -/
def insertNew (t : Table α) (k : String) (v : α) : Table α :=
  if t.contains k then t else t.insert k v

/-- Removes a key. -/
def erase (t : Table α) (k : String) : Table α :=
  ⟨t.entries.filter fun e => e.1 ≠ k, t.nodup.sublist (List.filter_sublist.map _)⟩

/-- The number of entries. -/
def size (t : Table α) : Nat := t.entries.length

/-! ## What is found -/

@[simp] theorem find?_empty (k : String) : (empty : Table α).find? k = none := rfl

theorem lookup_insertEntry_self (k : String) (v : α) (es : List (String × α)) :
    (insertEntry k v es).lookup k = some v := by
  induction es with
  | nil => simp [insertEntry]
  | cons e es ih =>
    by_cases h : e.1 = k
    · simp [insertEntry, h]
    · have h' : (k == e.1) = false := beq_eq_false_iff_ne.2 (Ne.symm h)
      obtain ⟨k', v'⟩ := e
      simpa [insertEntry, h, List.lookup_cons, h'] using ih

theorem lookup_insertEntry_of_ne (h : k' ≠ k) (v : α) (es : List (String × α)) :
    (insertEntry k v es).lookup k' = es.lookup k' := by
  have hk : (k' == k) = false := by simpa using h
  induction es with
  | nil => simp [insertEntry, List.lookup_cons, hk]
  | cons e es ih =>
    obtain ⟨l, w⟩ := e
    by_cases hl : l = k
    · subst hl; simp [insertEntry, List.lookup_cons, hk]
    · by_cases hk' : k' == l <;> simp [insertEntry, hl, List.lookup_cons, hk', ih]

@[simp] theorem find?_insert_self (t : Table α) (k : String) (v : α) :
    (t.insert k v).find? k = some v := lookup_insertEntry_self k v t.entries

theorem find?_insert_of_ne (t : Table α) (h : k' ≠ k) (v : α) :
    (t.insert k v).find? k' = t.find? k' := lookup_insertEntry_of_ne h v t.entries

theorem find?_insert (t : Table α) (k k' : String) (v : α) :
    (t.insert k v).find? k' = if k' = k then some v else t.find? k' := by
  by_cases h : k' = k
  · subst h; simp
  · rw [if_neg h, find?_insert_of_ne t h]

theorem find?_erase (t : Table α) (k k' : String) :
    (t.erase k).find? k' = if k' = k then none else t.find? k' := by
  obtain ⟨es, hes⟩ := t
  simp only [find?, erase]
  clear hes
  induction es with
  | nil => simp
  | cons e es ih =>
    obtain ⟨l, w⟩ := e
    by_cases hl : l = k
    · subst hl
      by_cases h : k' = l
      · simpa [List.filter_cons, h] using ih
      · have h' : (k' == l) = false := by simpa using h
        simpa [List.filter_cons, List.lookup_cons, h, h'] using ih
    · by_cases h : k' = l
      · subst h; simp [hl]
      · have h' : (k' == l) = false := by simpa using h
        simpa [List.filter_cons, List.lookup_cons, hl, h'] using ih

theorem mem_entries_iff (t : Table α) (k : String) (v : α) :
    (k, v) ∈ t.entries ↔ t.find? k = some v := by
  obtain ⟨es, hes⟩ := t
  simp only [find?]
  induction es with
  | nil => simp
  | cons e es ih =>
    obtain ⟨l, w⟩ := e
    simp only [List.map_cons, List.nodup_cons] at hes
    by_cases h : k = l
    · subst h
      have hk : (k, v) ∉ es := fun hm => hes.1 (List.mem_map.2 ⟨_, hm, rfl⟩)
      simp [hk, eq_comm]
    · have h' : (k == l) = false := by simpa using h
      simp [List.lookup_cons, h, h', ih hes.2]

theorem mem_keys_iff (t : Table α) (k : String) : k ∈ t.keys ↔ t.contains k = true := by
  simp only [keys, contains, List.mem_map, Option.isSome_iff_exists]
  constructor
  · rintro ⟨⟨_, v⟩, h, rfl⟩; exact ⟨v, (t.mem_entries_iff _ v).1 h⟩
  · rintro ⟨v, h⟩; exact ⟨(k, v), (t.mem_entries_iff k v).2 h, rfl⟩

/-! ## Where keys stand -/

theorem keys_nodup (t : Table α) : t.keys.Nodup := t.nodup

theorem keys_insert_of_mem (t : Table α) (h : k ∈ t.keys) (v : α) :
    (t.insert k v).keys = t.keys := keys_insertEntry_of_mem v h

theorem keys_insert_of_not_mem (t : Table α) (h : k ∉ t.keys) (v : α) :
    (t.insert k v).keys = t.keys ++ [k] := keys_insertEntry_of_not_mem v h

end Table

end MessageSchema
