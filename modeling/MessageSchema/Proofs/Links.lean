/-
  Where the imports of a draft lead.

  * `find?_links`, `exists_import_of_find?_links`: the links are the imports.
-/
import MessageSchema.Draft.Attachment
import MessageSchema.Path
import MessageSchema.Proofs.Tables
import Mathlib.Data.List.Pairwise

namespace MessageSchema.Draft

open List Option Table

variable {is : List Import} {find : Import → Option DraftId} {d : Draft} {ext : String}

/-- Imports share a key only if none of them has a local name. -/
def KeysApart (is : List Import) : Prop :=
  is.Pairwise fun i j => i.key = j.key → i.localName = none ∧ j.localName = none

variable {i j : Import} {file k g : String}

theorem KeysApart.eq_or (h : KeysApart is) (hi : i ∈ is) (hj : j ∈ is) (hkey : i.key = j.key) :
    i = j ∨ (i.localName = none ∧ j.localName = none) := by
  have : Std.Symm fun i j : Import => i.key = j.key → i.localName = none ∧ j.localName = none :=
    ⟨fun _ _ hxy e => (hxy e.symm).symm⟩
  rcases eq_or_ne i j with rfl | hne
  · exact .inl rfl
  · exact .inr (List.Pairwise.forall h hi hj hne hkey)

theorem KeysApart.path_eq (h : KeysApart is) (hi : i ∈ is) (hj : j ∈ is) (hkey : i.key = j.key) :
    i.path = j.path := by
  rcases h.eq_or hi hj hkey with rfl | ⟨hi', hj'⟩
  · rfl
  · simpa [Import.key, hi', hj'] using hkey

/-! ## Attaching -/

/-- The imports met so far by their keys. -/
def seenOf (is : List Import) : Table Import := is.foldl (fun t i => t.insert i.key i) .empty

theorem keysApart_concat_iff {before : List Import} (h : KeysApart before) (i : Import) :
    KeysApart (before ++ [i]) ↔
      ∀ e, (seenOf before).find? i.key = some e → e.localName = none ∧ i.localName = none := by
  rw [KeysApart, pairwise_append]
  constructor
  · rintro ⟨-, -, hi⟩ e he
    rcases find?_foldl_insert he with ⟨x, hx, hkey, rfl⟩ | he
    · exact hi x hx i mem_cons_self hkey
    · cases he
  · intro hseen
    refine ⟨h, by simp, fun e he j hj hkey => ?_⟩
    rw [mem_singleton.1 hj] at hkey ⊢
    have hcontains : (seenOf before).contains i.key = true :=
      contains_foldl_insert (.inl ⟨e, he, hkey⟩)
    obtain ⟨e', he'⟩ := (contains_iff _ _).1 hcontains
    obtain ⟨hnone, hi⟩ := hseen e' he'
    rcases find?_foldl_insert he' with ⟨x, hx, hxkey, rfl⟩ | he'
    · rcases h.eq_or he hx (hkey.trans hxkey.symm) with rfl | hboth
      · exact ⟨hnone, hi⟩
      · exact ⟨hboth.1, hi⟩
    · cases he'

/-- The numbers that are found for some imports, by key. -/
def foundFor (find : Import → Option DraftId) (is : List Import) : List (String × DraftId) :=
  is.filterMap fun i => (find i).map fun id => (i.key, id)

theorem attachAll_from_eq_none_iff {file : String} (before : List Import) (h : KeysApart before)
    {t t' : Table DraftId} :
    attachAll file find is (seenOf before) t = (t', none) ↔
      KeysApart (before ++ is) ∧ t' = (foundFor find is).foldl (fun t e => t.insert e.1 e.2) t := by
  induction is generalizing before t with
  | nil =>
    rw [attachAll, append_nil, foundFor, filterMap_nil, foldl_nil]
    simp [h, eq_comm]
  | cons i is ih =>
    have hseen : (seenOf before).insert i.key i = seenOf (before ++ [i]) := by
      rw [seenOf, seenOf, foldl_append]; rfl
    have hiff := keysApart_concat_iff h i
    rw [attachAll, hseen, append_cons before i is]
    cases hearlier : (seenOf before).find? i.key with
    | none =>
      refine (ih _ (hiff.2 fun e he => by rw [hearlier] at he; cases he)).trans ?_
      cases hid : find i <;> simp [foundFor, hid]
    | some e =>
      simp only
      split
      · next hlocal =>
        refine ⟨fun hh => (nomatch hh), fun hh => ?_⟩
        have hprefix : KeysApart (before ++ [i]) := (pairwise_append.1 hh.1).1
        obtain ⟨h1, h2⟩ := hiff.1 hprefix e hearlier
        simp [h1, h2] at hlocal
      · next hlocal =>
        simp only [Bool.or_eq_true, not_or, Bool.not_eq_true, isSome_eq_false_iff,
          isNone_iff_eq_none] at hlocal
        refine (ih _ (hiff.2 fun e' he' => ?_)).trans ?_
        · rw [hearlier] at he'
          cases he'
          exact hlocal
        · cases hid : find i <;> simp [foundFor, hid]

/-- **Attaching succeeds just if the keys of the imports are apart.** -/
theorem attachAll_eq_none_iff {val : Import → DraftId} (hfind : ∀ i ∈ is, find i = some (val i))
    {t' : Table DraftId} :
    attachAll file find is .empty .empty = (t', none) ↔
      KeysApart is ∧ t' = is.foldl (fun t i => t.insert i.key (val i)) .empty := by
  have hfound : foundFor find is = is.map fun i => (i.key, val i) := by
    rw [foundFor, ← filterMap_eq_map]
    refine filterMap_congr fun i hi => ?_
    rw [hfind i hi]
    rfl
  refine (attachAll_from_eq_none_iff [] List.Pairwise.nil).trans ?_
  rw [hfound, foldl_map, nil_append]

/-- **Attaching again changes nothing**, if what is found for an import depends on its
    path alone. -/
theorem attach_attach (hfind : ∀ i j, i.path = j.path → find i = find j) {d' : Draft}
    (h : d.attach find = (d', none)) : d'.attach find = (d', none) := by
  have hiff :=
    fun t t' => @attachAll_from_eq_none_iff d.imports find d.file [] List.Pairwise.nil t t'
  obtain ⟨t, fault, ht⟩ : ∃ t fault, attachAll d.file find d.imports .empty d.attached =
      (t, fault) :=
    ⟨_, _, rfl⟩
  simp only [attach, ht, Prod.mk.injEq] at h
  obtain ⟨rfl, rfl⟩ := h
  obtain ⟨hkeys, rfl⟩ := (hiff _ _).1 ht
  have hagree : ∀ x ∈ foundFor find d.imports, ∀ y ∈ foundFor find d.imports, x.1 = y.1 →
      x.2 = y.2 := by
    intro x hx y hy hkey
    obtain ⟨i, hi, hx⟩ := mem_filterMap.1 hx
    obtain ⟨j, hj, hy⟩ := mem_filterMap.1 hy
    obtain ⟨id, hid, rfl⟩ := map_eq_some_iff.1 hx
    obtain ⟨id', hid', rfl⟩ := map_eq_some_iff.1 hy
    -- imports that share a key lead along one path
    have hsame := hfind i j (KeysApart.path_eq hkeys hi hj hkey)
    rw [hid, hid'] at hsame
    exact some.inj hsame
  have hagain :=
    (hiff (foundFor find d.imports |>.foldl (fun t e => t.insert e.1 e.2) d.attached) _).2
    ⟨hkeys, (foldl_insert_again hagree).symm⟩
  simp only [attach]
  exact congrArg (fun r : Table DraftId × Option Fault =>
    (({ d with attached := r.1 } : Draft), r.2)) hagain

theorem exists_import_of_attachAll {seen : Table Import} {t : Table DraftId}
    {id : DraftId} (h : (attachAll file find is seen t).1.find? k = some id) :
    (∃ i ∈ is, i.key = k ∧ find i = some id) ∨ t.find? k = some id := by
  induction is generalizing seen t with
  | nil => exact .inr h
  | cons i is ih =>
    -- one more import, if it is kept
    have hstep : ∀ {seen' t'}, (find i = none → t' = t) →
        (∀ id', find i = some id' → t' = t.insert i.key id') →
        (attachAll file find is seen' t').1.find? k = some id →
        (∃ j ∈ i :: is, j.key = k ∧ find j = some id) ∨ t.find? k = some id := by
      intro seen' t' hnone hsome h
      rcases ih h with ⟨j, hj, hkey, hfind⟩ | h
      · exact .inl ⟨j, mem_cons_of_mem _ hj, hkey, hfind⟩
      · cases hfind : find i with
        | none => exact .inr (by rwa [hnone hfind] at h)
        | some id' =>
          rw [hsome id' hfind, find?_insert] at h
          split at h
          · next hk =>
            cases h
            exact .inl ⟨i, mem_cons_self, hk.symm, hfind⟩
          · exact .inr h
    rw [attachAll] at h
    split at h
    · exact hstep (fun hi => by rw [hi]) (fun _ hi => by rw [hi]) h
    · split at h
      · exact .inr h
      · exact hstep (fun hi => by rw [hi]) (fun _ hi => by rw [hi]) h

/-! ## Links -/

/-- The files that the imports of a draft lead to, by import key. -/
def links (ext : String) (d : Draft) : Table String :=
  d.imports.foldl (fun t i => t.insert i.key (Path.ofImport ext d.file i.path)) .empty

theorem exists_import_of_find?_links (h : (d.links ext).find? k = some g) :
    ∃ i ∈ d.imports, i.key = k ∧ Path.ofImport ext d.file i.path = g := by
  rcases find?_foldl_insert h with h | h
  · exact h
  · cases h

theorem exists_import_of_mem_links (h : g ∈ (d.links ext).values) :
    ∃ i ∈ d.imports, Path.ofImport ext d.file i.path = g := by
  obtain ⟨k, hk⟩ := (mem_values_iff _ _).1 h
  obtain ⟨i, hi, -, hg⟩ := exists_import_of_find?_links hk
  exact ⟨i, hi, hg⟩

theorem find?_links (h : KeysApart d.imports) (hi : i ∈ d.imports) :
    (d.links ext).find? i.key = some (Path.ofImport ext d.file i.path) := by
  refine find?_foldl_insert_of_mem hi fun j hj hkey => ?_
  rw [h.path_eq hj hi hkey]

theorem mem_links (h : KeysApart d.imports) (hi : i ∈ d.imports) :
    Path.ofImport ext d.file i.path ∈ (d.links ext).values :=
  (mem_values_iff _ _).2 ⟨_, find?_links h hi⟩

/-- The drafts that the imports of a draft lead to, by import key. -/
def linked (ext : String) (final : String → Option Draft) (d : Draft) : List (String × Draft) :=
  (d.links ext).entries.filterMap fun e => (final e.2).map fun x => (e.1, x)

theorem linked_congr {final final' : String → Option Draft}
    (h : ∀ i ∈ d.imports, final (Path.ofImport ext d.file i.path) =
      final' (Path.ofImport ext d.file i.path)) :
    d.linked ext final = d.linked ext final' := by
  refine filterMap_congr fun e he => ?_
  obtain ⟨i, hi, -, htarget⟩ := exists_import_of_find?_links ((mem_entries_iff _ _ _).1 he)
  rw [← htarget, h i hi]

theorem mem_linked_iff {final : String → Option Draft} {x : Draft} :
    (k, x) ∈ d.linked ext final ↔ ∃ g, (d.links ext).find? k = some g ∧ final g = some x := by
  simp only [linked, mem_filterMap, map_eq_some_iff, Prod.mk.injEq]
  constructor
  · rintro ⟨⟨k', g⟩, hmem, y, hy, rfl, rfl⟩
    exact ⟨g, (mem_entries_iff _ _ _).1 hmem, hy⟩
  · rintro ⟨g, hg, hx⟩
    exact ⟨(k, g), (mem_entries_iff _ _ _).2 hg, x, hx, rfl, rfl⟩

end MessageSchema.Draft
