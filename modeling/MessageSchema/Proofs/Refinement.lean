/-
  What the passes make of a draft.

  A refined draft has the namespaces of the wrapped one, each with its qualified
  name, with every name looked up and every inline type promoted.

  * `Refines imports raw d`: the passes make `d` of what has been read;
  * `Refines.refined`: every namespace after the passes.
-/
import MessageSchema.Draft.Separators
import MessageSchema.Proofs.Promotion

namespace MessageSchema.Draft

open List Scope

variable {imports : List (String × Draft)}

/-! ## Resolution -/

/-- The declarations of a visited namespace with all names looked up. -/
def Visit.resolved (s : Surroundings) (v : Visit) : Scope :=
  v.site.ns.scope.mapNames (s.resolve (v.enclosing.map Site.region))

variable {d e raw : Draft} {v : Visit} {ns : Namespace} {s : Scope}

theorem resolve_eq (h : d.resolve imports = .ok e) :
    d.isWrapped = true ∧ e = { d with
      arena :=
        d.walk.foldl (resolveSite (d.surroundings imports)) (d.walk.foldl nameSite d.arena) } := by
  unfold resolve at h
  split at h
  · next hw => cases h; exact ⟨hw, rfl⟩
  · cases h

/-- What resolution leaves as it is: all that depends neither on qualified names nor on
    the names in declarations. -/
theorem map_resolve {α : Type} {view : Namespace → α}
    (hname : ∀ q ns, view { ns with qualified := q } = view ns)
    (hscope : ∀ f ns, view { ns with scope := ns.scope.mapNames f } = view ns)
    (h : d.resolve imports = .ok e) : e.arena.map view = d.arena.map view := by
  obtain ⟨-, rfl⟩ := resolve_eq h
  exact (map_modifyAll (fun v : Visit => v.site.index) _ (fun _ => hscope _) _ _).trans
    (map_modifyAll (fun v : Visit => v.site.index) _ (fun _ => hname _) _ _)

theorem outline_resolve (h : d.resolve imports = .ok e) : outline e.arena = outline d.arena :=
  map_resolve (fun _ _ => rfl) (fun _ _ => rfl) h

/-- A namespace after resolution: it knows its name, and its names are looked up. -/
theorem getElem?_resolve (hd : d.Covered) (h : d.resolve imports = .ok e) (hv : v ∈ d.walk) :
    e.arena[v.site.index]? = some { v.site.ns with
      qualified := some v.site.qualified
      scope := v.resolved (d.surroundings imports) } := by
  obtain ⟨-, rfl⟩ := resolve_eq h
  refine (getElem?_modifyAll (fun v : Visit => v.site.index) _ hd.nodup hv _).trans ?_
  refine (congrArg (Option.map _)
    (getElem?_modifyAll (fun v : Visit => v.site.index) _ hd.nodup hv _)).trans ?_
  rw [getElem?_site_of_mem_walk hv]
  rfl

/-! ## Promotion -/

/-- The namespaces of an arena after promotion. -/
structure Promoted (is : List Nat) (arena arena' : List Namespace) : Prop where
  outline : outline arena' = outline arena
  other : ∀ j ∉ is, arena'[j]? = arena[j]?
  scope : ∀ i ∈ is, ∀ ns, arena[i]? = some ns →
    ∃ s, ns.scope.promote ns.qualified = (s, none) ∧ arena'[i]? = some { ns with scope := s }

theorem outline_set {arena : List Namespace} {i : Nat} (hns : arena[i]? = some ns)
    (hs : s.children = ns.scope.children) :
    Draft.outline (arena.set i { ns with scope := s }) = Draft.outline arena := by
  have hlt : i < arena.length := (List.getElem?_eq_some_iff.1 hns).1
  refine ext_getElem? fun j => ?_
  rw [Draft.outline, Draft.outline, getElem?_map, getElem?_map]
  by_cases hij : i = j
  · subst hij
    rw [getElem?_set_self hlt, hns]
    simp [hs]
  · rw [getElem?_set_ne hij]

theorem promoted_promoteAt {is : List Nat} (hnd : is.Nodup) {arena arena' : List Namespace}
    (h : promoteAt is arena = (arena', none)) : Promoted is arena arena' := by
  induction is generalizing arena with
  | nil =>
    rw [promoteAt] at h
    cases h
    exact ⟨rfl, fun j _ => rfl, by simp⟩
  | cons i is ih =>
    rw [nodup_cons] at hnd
    rw [promoteAt] at h
    split at h
    · next hi =>
      obtain ⟨ho, hother, hscope⟩ := ih hnd.2 h
      refine ⟨ho, fun j hj => hother j fun hm => hj (mem_cons_of_mem _ hm), ?_⟩
      intro j hj ns hns
      rcases mem_cons.1 hj with rfl | hj
      · rw [hi] at hns; cases hns
      · exact hscope j hj ns hns
    · next ns hns =>
      obtain ⟨s, fault, hs⟩ : ∃ s fault, ns.scope.promote ns.qualified = (s, fault) := ⟨_, _, rfl⟩
      simp only [hs] at h
      cases fault with
      | some fault => cases h
      | none =>
        obtain ⟨ho, hother, hscope⟩ := ih hnd.2 h
        have hlt : i < arena.length := (List.getElem?_eq_some_iff.1 hns).1
        have hchildren : s.children = ns.scope.children := by
          rw [← promote_children ns.qualified ns.scope, hs]
        refine ⟨ho.trans (outline_set hns hchildren), fun j hj => ?_, fun j hj ns' hns' => ?_⟩
        · simp only [mem_cons, not_or] at hj
          rw [hother j hj.2, getElem?_set_ne (Ne.symm hj.1)]
        · rcases mem_cons.1 hj with rfl | hj
          -- the indices are distinct, so the scope stays as it has been set
          · rw [hns] at hns'
            cases hns'
            refine ⟨s, hs, ?_⟩
            rw [hother j hnd.1, getElem?_set_self hlt]
          · have hne : i ≠ j := fun e => hnd.1 (e ▸ hj)
            exact hscope j hj ns' (by rw [getElem?_set_ne hne, hns'])

/-- A wrapped draft is promoted in its namespaces. -/
theorem promote_eq (hd : d.Covered) (htop : d.top.declaresNothing = true)
    (h : d.promote = (e, none)) :
    e = { d with arena := e.arena } ∧ Promoted (d.walk.map (·.site.index)) d.arena e.arena := by
  have htop := promote_of_declaresNothing htop none
  obtain ⟨arena, fault, ha⟩ : ∃ x y, promoteAt (d.walk.map (·.site.index)) d.arena = (x, y) :=
    ⟨_, _, rfl⟩
  rw [promote, htop] at h
  simp only [ha] at h
  cases h
  exact ⟨rfl, promoted_promoteAt hd.nodup ha⟩

/-! ## All passes -/

/-- The passes make `d` of the draft `raw` whose imports are attached with the drafts
    `imports`. -/
def Refines (imports : List (String × Draft)) (raw d : Draft) : Prop :=
  ∃ e, raw.wrap.useColons.resolve imports = .ok e ∧ e.promote = (d, none)

theorem outline_useColons (d : Draft) : outline d.useColons.arena = outline d.arena := by
  simp only [outline, useColons, map_map]
  rfl

/-- A visit after names have been written with double colons, and the one before. -/
theorem exists_visit_of_useColons (hv : v ∈ d.useColons.walk) :
    ∃ u ∈ d.walk, u.route = v.route ∧
      v.site.ns = { u.site.ns with scope := u.site.ns.scope.mapNames TypeName.useColons } := by
  have hmem := mem_map_of_mem (f := Visit.route) hv
  rw [route_walk_congr (show d.useColons.top.children = d.top.children from rfl)
    (outline_useColons d)] at hmem
  obtain ⟨u, hu, hroute⟩ := mem_map.1 hmem
  refine ⟨u, hu, hroute, ?_⟩
  have hget := getElem?_site_of_mem_walk hv
  rw [← (Visit.site_of_route hroute).1, useColons, getElem?_map,
    getElem?_site_of_mem_walk hu] at hget
  exact (Option.some.inj hget).symm

theorem AsRead.covered_useColons (h : raw.AsRead) : raw.wrap.useColons.Covered :=
  h.isLaid.covered_wrap.congr rfl (outline_useColons _).symm

theorem wrap_file (d : Draft) : d.wrap.file = d.file := by unfold wrap; split <;> rfl

theorem wrap_imports (d : Draft) : d.wrap.imports = d.imports := by unfold wrap; split <;> rfl

theorem wrap_attached (d : Draft) : d.wrap.attached = d.attached := by unfold wrap; split <;> rfl

theorem Scope.AsRead.moveTo (h : s.AsRead) (home : String) : (s.moveTo home).AsRead := by
  refine ⟨forall_mem_map.2 fun m hm => ?_, forall_mem_map.2 fun e he => ?_,
    forall_mem_map.2 fun e he => ?_, forall_mem_map.2 h.compoundName⟩
  · exact ⟨(h.message m hm).name, (h.message m hm).parent, (h.message m hm).fieldName,
      (h.message m hm).fieldType⟩
  · exact ⟨(h.enumeration e he).name, (h.enumeration e he).parent⟩
  · exact ⟨(h.options e he).name, (h.options e he).parent⟩

/-- The namespaces of a wrapped file. -/
theorem mem_arena_wrap (h : ns ∈ raw.wrap.arena) :
    (∃ ns' ∈ raw.arena, ns.name = ns'.name ∧ ns.scope = ns'.scope) ∨
      ns.name = raw.stem ∧ ns.scope = raw.top.moveTo raw.stem := by
  unfold wrap at h
  split at h
  · exact .inl ⟨ns, h, rfl, rfl⟩
  · rcases mem_append.1 h with h | h
    · have hmem := mem_map_of_mem (f := fun ns : Namespace => (ns.name, ns.scope)) h
      rw [map_adopt fun _ _ => rfl] at hmem
      obtain ⟨ns', hns', heq⟩ := mem_map.1 hmem
      exact .inl ⟨ns', hns', (congrArg Prod.fst heq).symm, (congrArg Prod.snd heq).symm⟩
    · rw [mem_singleton.1 h]
      exact .inr ⟨rfl, rfl⟩

theorem AsRead.arena_wrap (h : raw.AsRead) : ∀ ns ∈ raw.wrap.arena, ns.scope.AsRead := by
  intro ns hns
  rcases mem_arena_wrap hns with ⟨ns', hns', -, hscope⟩ | ⟨-, hscope⟩
  · rw [hscope]
    exact h.arena ns' hns'
  · rw [hscope]
    exact h.top.moveTo _

/-- A draft whose namespaces know their names, all of them met by the walk, with
    words as the names of its declarations. -/
structure Finished (d : Draft) : Prop where
  covered : d.Covered
  qualified : ∀ v ∈ d.walk, v.site.ns.qualified = some v.site.qualified
  isWord : ∀ v ∈ d.walk, ∀ x ∈ Model.declarationsOf v.site.ns.scope, IsWord x.name

section
variable {imports : List (String × Draft)} {raw d : Draft}

/-- **What the passes make of a draft**: only its namespaces change. -/
structure Refined (imports : List (String × Draft)) (raw d : Draft) : Prop where
  rest : d = { raw.wrap.useColons with arena := d.arena }
  top : d.top.declaresNothing = true
  outline : outline d.arena = outline raw.wrap.useColons.arena
  /-- every namespace knows its name, its names are looked up, and what was written
      inline is promoted -/
  visited : ∀ v ∈ raw.wrap.useColons.walk, ∃ s,
    (v.resolved (raw.wrap.useColons.surroundings imports)).promote (some v.site.qualified) =
    (s, none) ∧
      d.arena[v.site.index]? =
      some { v.site.ns with qualified := some v.site.qualified, scope := s }

theorem Refines.refined (hraw : raw.AsRead) (h : Refines imports raw d) :
    Refined imports raw d := by
  obtain ⟨e, he, hd⟩ := h
  have hcov := hraw.covered_useColons
  have ho := outline_resolve he
  obtain ⟨hw, heq⟩ := resolve_eq he
  have htop : e.top = raw.wrap.useColons.top := by rw [heq]
  have hnothing : e.top.declaresNothing = true := by
    rw [htop]; exact (Bool.and_eq_true_iff.1 hw).1
  have hecov : e.Covered := hcov.congr (congrArg children htop).symm ho.symm
  obtain ⟨hde, hpromoted⟩ := promote_eq hecov hnothing hd
  refine ⟨by rw [hde, heq], by rw [hde]; exact hnothing, hpromoted.outline.trans ho, ?_⟩
  intro v hv
  have hindex : v.site.index ∈ e.walk.map (·.site.index) := by
    rw [hecov.mem_iff, ← length_eq_of_outline_eq ho.symm, mem_range]
    exact (List.getElem?_eq_some_iff.1 (getElem?_site_of_mem_walk hv)).1
  exact hpromoted.scope _ hindex _ (getElem?_resolve hcov he hv)

namespace Refined

variable {v u : Visit}

theorem file (h : Refined imports raw d) : d.file = raw.file := by rw [h.rest]; exact wrap_file raw

theorem imports_eq (h : Refined imports raw d) : d.imports = raw.imports := by
  rw [h.rest]; exact wrap_imports raw

theorem attached (h : Refined imports raw d) : d.attached = raw.attached := by
  rw [h.rest]; exact wrap_attached raw

theorem children_top (h : Refined imports raw d) :
    raw.wrap.useColons.top.children = d.top.children := by rw [h.rest]

theorem covered (hraw : raw.AsRead) (h : Refined imports raw d) : d.Covered :=
  hraw.covered_useColons.congr h.children_top h.outline.symm

/-- Visits along one route, before the passes and after them. -/
theorem visited_of_route (h : Refined imports raw d) (hu : u ∈ raw.wrap.useColons.walk)
    (hv : v ∈ d.walk) (hroute : u.route = v.route) :
    u.site.index = v.site.index ∧ u.site.qualified = v.site.qualified ∧ ∃ s,
      (u.resolved (raw.wrap.useColons.surroundings imports)).promote (some u.site.qualified) =
        (s, none) ∧
        v.site.ns = { u.site.ns with qualified := some u.site.qualified, scope := s } := by
  obtain ⟨hindex, hqualified⟩ := Visit.site_of_route hroute
  obtain ⟨s, hs, hget⟩ := h.visited u hu
  rw [hindex, getElem?_site_of_mem_walk hv] at hget
  exact ⟨hindex, hqualified, s, hs, Option.some.inj hget⟩

/-- A namespace after the passes, and the visit to it before them. -/
theorem before (h : Refined imports raw d) (hv : v ∈ d.walk) :
    ∃ u ∈ raw.wrap.useColons.walk, u.route = v.route ∧ ∃ s,
      (u.resolved (raw.wrap.useColons.surroundings imports)).promote (some v.site.qualified) =
        (s, none) ∧
        v.site.ns = { u.site.ns with qualified := some v.site.qualified, scope := s } := by
  have hmem := mem_map_of_mem (f := Visit.route) hv
  rw [← route_walk_congr h.children_top h.outline.symm] at hmem
  obtain ⟨u, hu, hroute⟩ := mem_map.1 hmem
  obtain ⟨-, hqualified, hscope⟩ := h.visited_of_route hu hv hroute
  rw [hqualified] at hscope
  exact ⟨u, hu, hroute, hscope⟩

theorem after (h : Refined imports raw d) (hu : u ∈ raw.wrap.useColons.walk) :
    ∃ v ∈ d.walk, v.site.index = u.site.index ∧ v.site.qualified = u.site.qualified ∧ ∃ s,
      (u.resolved (raw.wrap.useColons.surroundings imports)).promote (some u.site.qualified) =
        (s, none) ∧
        v.site.ns = { u.site.ns with qualified := some u.site.qualified, scope := s } := by
  have hmem := mem_map_of_mem (f := Visit.route) hu
  rw [route_walk_congr h.children_top h.outline.symm] at hmem
  obtain ⟨v, hv, hroute⟩ := mem_map.1 hmem
  obtain ⟨hindex, hqualified, hscope⟩ := h.visited_of_route hu hv hroute.symm
  exact ⟨v, hv, hindex.symm, hqualified.symm, hscope⟩

theorem qualified (h : Refined imports raw d) (hv : v ∈ d.walk) :
    v.site.ns.qualified = some v.site.qualified := by
  obtain ⟨u, -, -, s, -, hns⟩ := h.before hv
  rw [hns]

theorem mem_names_iff (h : Refined imports raw d) (hv : v ∈ d.walk) :
    ∃ ns ∈ raw.wrap.arena, ∀ n,
      (n ∈ (Model.declarationsOf v.site.ns.scope).map Model.Declaration.name ↔
      n ∈ ns.scope.declared) := by
  obtain ⟨u, hu, -, s, hs, hns⟩ := h.before hv
  have hmem := mem_of_getElem? (getElem?_site_of_mem_walk hu)
  obtain ⟨ns, hns', heq⟩ := mem_map.1 hmem
  refine ⟨ns, hns', fun n => ?_⟩
  rw [hns]
  refine (mem_names_promote hs).trans ?_
  rw [Visit.resolved, declared_mapNames, ← heq, declared_mapNames]

theorem isWord_name (hraw : raw.AsRead) (h : Refined imports raw d) (hv : v ∈ d.walk)
    {x : Model.Declaration} (hx : x ∈ Model.declarationsOf v.site.ns.scope) : IsWord x.name := by
  obtain ⟨ns, hns, hiff⟩ := h.mem_names_iff hv
  exact (hraw.arena_wrap ns hns).isWord_declared ((hiff _).1 (mem_map_of_mem hx))

/-- **The passes finish a draft.** -/
theorem finished (hraw : raw.AsRead) (h : Refined imports raw d) : d.Finished :=
  ⟨h.covered hraw, fun _ hv => h.qualified hv, fun _ hv _ hx => h.isWord_name hraw hv hx⟩

end Refined

end

end MessageSchema.Draft
