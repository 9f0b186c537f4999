/-
  What lookups find.
-/
import MessageSchema.Proofs.Entities

namespace MessageSchema

open List QualifiedName

namespace Draft

variable {q : String} {d : Draft}

/-! ## Regions -/

variable {name : String} {imports : List (String × Draft)}

theorem Region.mem_entities_of_find? {r : Region} (h : r.find? name = some q) : q ∈ r.entities := by
  rw [Region.find?] at h
  split at h
  · next hname =>
    cases h
    exact mem_map_of_mem (contains_iff_mem.1 hname)
  · cases h

theorem root_mem_regions (d : Draft) : d.symbols.root ∈ d.symbols.regions := by
  rw [symbols]
  cases hroot : d.rootIndex?.bind fun i => (d.walk.map (·.site)).find? fun s => s.index = i with
  | none => exact mem_cons_self
  | some site =>
    obtain ⟨i, -, hsite⟩ := Option.bind_eq_some_iff.1 hroot
    exact mem_cons_of_mem _ (mem_map_of_mem (mem_of_find?_eq_some hsite))

theorem mem_entities_of_root (h : q ∈ d.symbols.root.entities) : q ∈ d.symbols.entities :=
  mem_flatMap.2 ⟨_, root_mem_regions d, h⟩

theorem mem_entities_of_visit {v : Visit} (hv : v ∈ d.walk) (h : q ∈ v.site.region.entities) :
    q ∈ d.symbols.entities :=
  mem_flatMap.2 ⟨_, mem_cons_of_mem _ (mem_map_of_mem (mem_map_of_mem hv)), h⟩

/-! ## Lookups -/

/-- **What a name can denote.** -/
theorem Surroundings.lookup_cases {s : Surroundings} {enclosing : List Region}
    (h : s.lookup enclosing name = some q) :
    (∃ r ∈ enclosing, q ∈ r.entities) ∨ q ∈ s.own.entities ∨
      (∃ i ∈ s.plain, q ∈ i.root.entities ∨ q ∈ i.entities) ∨
      ∃ i ∈ s.named, i.localName = head name ∧ q ∈ i.entities := by
  rw [lookup] at h
  split at h
  -- a name with colons: by a local name, in the file itself, or in its other imports
  · simp only [lookupQualified, Option.orElse_eq_orElse, Option.orElse_eq_or,
      Option.or_eq_some_iff] at h
    rcases h with h | ⟨-, h | ⟨-, h⟩⟩
    · obtain ⟨i, hi, hfind⟩ := Option.bind_eq_some_iff.1 h
      have hlocal : i.localName = head name := by simpa using find?_some hi
      have hq : q ∈ i.entities := mem_reverse.1 (mem_of_find?_eq_some hfind)
      exact .inr (.inr (.inr ⟨i, mem_of_find?_eq_some hi, hlocal, hq⟩))
    · exact .inr (.inl (contains_iff_mem.1 (find?_some h)))
    · obtain ⟨i, hi, h⟩ := exists_of_findSome?_eq_some h
      refine .inr (.inr (.inl ⟨i, hi, .inr ?_⟩))
      simp only [lookupImported] at h
      split at h
      · next hmem => cases h; exact contains_iff_mem.1 hmem
      · split at h
        · next hmem => cases h; exact contains_iff_mem.1 hmem
        · cases h
  -- a plain name: in the namespaces around it, or at the root of the other imports
  · simp only [lookupPlain, Option.orElse_eq_orElse, Option.orElse_eq_or,
      Option.or_eq_some_iff] at h
    rcases h with h | ⟨-, h⟩
    · obtain ⟨r, hr, h⟩ := exists_of_findSome?_eq_some h
      exact .inl ⟨r, hr, Region.mem_entities_of_find? h⟩
    · obtain ⟨i, hi, h⟩ := exists_of_findSome?_eq_some h
      exact .inr (.inr (.inl ⟨i, hi, .inl (Region.mem_entities_of_find? h)⟩))

theorem exists_of_mem_plain {i : Symbols} (h : i ∈ (d.surroundings imports).plain) :
    ∃ k x, (k, x) ∈ imports ∧ i = x.symbols ∧ ∀ j ∈ d.imports, j.localName ≠ some k := by
  obtain ⟨⟨k, x⟩, hmem, rfl⟩ := mem_map.1 h
  rw [mem_filter] at hmem
  exact ⟨k, x, hmem.1, rfl, by simpa using hmem.2⟩

theorem exists_of_mem_named {i : NamedImport} (h : i ∈ (d.surroundings imports).named) :
    ∃ x, (i.localName, x) ∈ imports ∧
      (∀ q ∈ i.entities, q ∈ x.symbols.entities) ∧ ∃ j ∈ d.imports, j.localName =
        some i.localName := by
  obtain ⟨⟨k, x⟩, hmem, rfl⟩ := mem_map.1 h
  rw [mem_filter] at hmem
  exact ⟨x, hmem.1, fun q hq => mem_eraseDups.1 hq, by simpa using hmem.2⟩

/-! ## What is declared -/

theorem Scope.declared_of_declaresNothing {s : Scope} (h : s.declaresNothing = true) :
    s.declared = [] := by
  obtain ⟨messages, enums, options, compounds, children⟩ := s
  simp only [declaresNothing, Bool.and_eq_true, List.isEmpty_iff] at h
  obtain ⟨⟨⟨rfl, rfl⟩, rfl⟩, rfl⟩ := h
  rfl

/-- What lookups see in a wrapped file is in its namespaces. -/
theorem mem_entities_iff (h : d.top.declaresNothing = true) :
    q ∈ d.symbols.entities ↔
      ∃ v ∈ d.walk, ∃ n ∈ v.site.ns.scope.declared, join (some v.site.qualified) n = q := by
  simp only [Symbols.entities, symbols, flatMap_cons, Region.entities,
    Scope.declared_of_declaresNothing h, map_nil, nil_append, mem_flatMap, mem_map,
    Site.region]
  constructor
  · rintro ⟨r, ⟨site, ⟨v, hv, rfl⟩, rfl⟩, n, hn, rfl⟩
    exact ⟨v, hv, n, hn, rfl⟩
  · rintro ⟨v, hv, n, hn, rfl⟩
    exact ⟨_, ⟨_, ⟨v, hv, rfl⟩, rfl⟩, n, hn, rfl⟩

section
variable {imports : List (String × Draft)} {raw d : Draft} (h : Refined imports raw d)
include h

theorem Refined.exists_declaration {v : Visit} (hv : v ∈ d.walk) {n : String}
    (hn : n ∈ v.site.ns.scope.declared) :
    ∃ x ∈ Model.declarationsOf v.site.ns.scope, x.name = n := by
  obtain ⟨u, -, -, s, hs, hns⟩ := h.before hv
  rw [hns] at hn ⊢
  exact mem_map.1 ((Scope.mem_names_promote hs).2 ((Scope.mem_declared_promote hs).1 hn))

/-- **What lookups see in a draft is still declared after the passes.** -/
theorem Refined.mem_entities_of_before (hq : q ∈ raw.wrap.useColons.symbols.entities) :
    q ∈ d.symbols.entities := by
  have htop : raw.wrap.useColons.top = d.top := by rw [h.rest]
  rw [mem_entities_iff (by rw [htop]; exact h.top)] at hq
  rw [mem_entities_iff h.top]
  obtain ⟨u, hu, n, hn, rfl⟩ := hq
  obtain ⟨v, hv, -, hqualified, s, hs, hns⟩ := h.after hu
  refine ⟨v, hv, n, ?_, by rw [hqualified]⟩
  rw [hns]
  refine (Scope.mem_declared_promote hs).2 ?_
  rwa [Visit.resolved, Scope.declared_mapNames]

end

end Draft

/-- **A model owns all that lookups see in its draft.** -/
theorem Model.Models.own?_of_mem_entities {lib : Library} {d : Draft} {m : Model}
    (hm : Models lib d m) {imports : List (String × Draft)} {raw : Draft}
    (h : Draft.Refined imports raw d) {q : String} (hq : q ∈ d.symbols.entities) :
    ∃ e, m.own? q = some e := by
  obtain ⟨v, hv, n, hn, rfl⟩ := (Draft.mem_entities_iff h.top).1 hq
  obtain ⟨x, hx, rfl⟩ := h.exists_declaration hv hn
  obtain ⟨e, he, -⟩ := hm.own?_of_declared (find?_declared hm.faultless hm.finished hv hx)
  exact ⟨e, he⟩

end MessageSchema
