/-
  The arena of a draft and the walk through it.

  A text lays its namespaces out in the arena in the order in which they open:
  a namespace, then those inside it, then the next one (`Laid`).  Wrapping a
  file puts one namespace behind them all.
-/
import MessageSchema.Draft.FileNamespace
import MessageSchema.Draft.Walk
import Mathlib.Data.List.Nodup
import Mathlib.Data.List.Range

namespace MessageSchema.Draft

open List

variable {v : Visit} {around : List Site} {d : Draft} {arena : List Namespace} {n : Nat}
  {cs : List Nat}

/-! ## Changes at distinct indices -/

theorem forall_mem_modify {α : Type} {P : α → Prop} {f : α → α} (hf : ∀ x, P x → P (f x))
    {a : List α} (h : ∀ x ∈ a, P x) (i : Nat) : ∀ x ∈ a.modify i f, P x := by
  intro x hx
  obtain ⟨j, hj⟩ := mem_iff_getElem?.1 hx
  rw [getElem?_modify] at hj
  obtain ⟨y, hy, rfl⟩ := Option.map_eq_some_iff.1 hj
  have hP := h y (mem_of_getElem? hy)
  split
  · exact hf y hP
  · exact hP

section
variable {α β : Type} (index : β → Nat) (f : β → α → α)

/-- Changes elements of a list one by one. -/
def modifyAll (vs : List β) (a : List α) : List α :=
  vs.foldl (fun a v => a.modify (index v) (f v)) a

variable {vs : List β}

theorem getElem?_modifyAll_of_not_mem {j : Nat} (hj : j ∉ vs.map index) (a : List α) :
    (modifyAll index f vs a)[j]? = a[j]? := by
  induction vs generalizing a with
  | nil => rfl
  | cons v vs ih =>
    simp only [map_cons, mem_cons, not_or] at hj
    rw [modifyAll, foldl_cons]
    refine (ih hj.2 _).trans ?_
    exact getElem?_modify_ne _ _ (Ne.symm hj.1)

theorem getElem?_modifyAll (hvs : (vs.map index).Nodup) {v : β} (hv : v ∈ vs) (a : List α) :
    (modifyAll index f vs a)[index v]? = (a[index v]?).map (f v) := by
  induction vs generalizing a with
  | nil => cases hv
  | cons u vs ih =>
    simp only [map_cons, nodup_cons] at hvs
    rw [modifyAll, foldl_cons]
    rcases mem_cons.1 hv with rfl | hv
    · refine (getElem?_modifyAll_of_not_mem index f hvs.1 _).trans ?_
      exact getElem?_modify_eq _ _ _
    · have hne : index u ≠ index v := fun h => hvs.1 (h ▸ mem_map_of_mem hv)
      refine (ih hvs.2 hv _).trans ?_
      rw [getElem?_modify_ne _ _ hne]

theorem map_modifyAll {γ : Type} {g : α → γ} (h : ∀ v x, g (f v x) = g x) (vs : List β)
    (a : List α) : (modifyAll index f vs a).map g = a.map g := by
  induction vs generalizing a with
  | nil => rfl
  | cons v vs ih =>
    rw [modifyAll, foldl_cons]
    refine (ih _).trans (ext_getElem? fun i => ?_)
    rw [getElem?_map, getElem?_map, getElem?_modify]
    split
    · cases a[i]? <;> simp [h]
    · cases a[i]? <;> rfl

end

/-! ## Routes -/

/-- Where a namespace is met: its index and its qualified name. -/
def Site.address (s : Site) : Nat × String := (s.index, s.qualified)

/-- Where a walk is when it meets a namespace: the addresses around it,
    innermost first. -/
def Visit.route (v : Visit) : List (Nat × String) := v.enclosing.map Site.address

variable {a b : List Namespace} {e : Draft} {site : Site} {i : Nat}

theorem Visit.site_of_route {u : Visit} (h : u.route = v.route) :
    u.site.index = v.site.index ∧ u.site.qualified = v.site.qualified :=
  Prod.mk.inj (cons.inj h).1

/-- The names of namespaces, and which are inside which. -/
def outline (arena : List Namespace) : List (String × List Nat) :=
  arena.map fun ns => (ns.name, ns.scope.children)

theorem outline_getElem? (h : outline a = outline b) (i : Nat) :
    (a[i]?).map (fun ns => (ns.name, ns.scope.children)) =
      (b[i]?).map (fun ns => (ns.name, ns.scope.children)) := by
  rw [← getElem?_map, ← getElem?_map]
  exact congrArg (·[i]?) h

theorem length_eq_of_outline_eq (h : outline a = outline b) : a.length = b.length := by
  simpa [outline] using congrArg List.length h

/-- Walks through arenas of the same outline take the same routes. -/
theorem route_visitsFrom (h : outline a = outline b) (n : Nat) {around' : List Site}
    (har : around.map Site.address = around'.map Site.address) (cs : List Nat) :
    (visitsFrom a n around cs).map Visit.route = (visitsFrom b n around' cs).map Visit.route := by
  induction n generalizing around around' cs with
  | zero => rfl
  | succ n ih =>
    have hhead : around.head?.map (·.qualified) = around'.head?.map (·.qualified) := by
      have := congrArg (fun l => l.head?.map Prod.snd) har
      simpa [head?_map, Function.comp_def, Site.address] using this
    rw [visitsFrom, visitsFrom, map_flatMap, map_flatMap]
    refine flatMap_congr fun i _ => ?_
    have hi := outline_getElem? h i
    rcases ha : a[i]? with _ | x <;> rcases hb : b[i]? with _ | y <;> simp [ha, hb] at hi
    · rfl
    · obtain ⟨hname, hchildren⟩ := hi
      simp only
      rw [map_cons, map_cons, hname, hchildren, hhead]
      congr 1
      · simp [Visit.route, Visit.enclosing, har, Site.address]
      · exact ih (by simp [har, Site.address]) _

/-- **Where a walk leads depends only on the outline.** -/
theorem route_walk_congr (htop : d.top.children = e.top.children)
    (h : outline d.arena = outline e.arena) : d.walk.map Visit.route = e.walk.map Visit.route := by
  rw [walk, walk, htop, length_eq_of_outline_eq h]
  exact route_visitsFrom h _ rfl _

/-- A namespace inside the innermost of some others. -/
def siteIn (around : List Site) (i : Nat) (ns : Namespace) : Site :=
  ⟨i, ns, QualifiedName.join (around.head?.map (·.qualified)) ns.name⟩

theorem mem_visitsFrom_succ :
    v ∈ visitsFrom arena (n + 1) around cs ↔ ∃ i ∈ cs, ∃ ns, arena[i]? = some ns ∧
      (v = ⟨siteIn around i ns, around⟩ ∨
        v ∈ visitsFrom arena n (siteIn around i ns :: around) ns.scope.children) := by
  rw [visitsFrom, mem_flatMap]
  refine exists_congr fun i => and_congr_right fun _ => ?_
  cases arena[i]? with
  | none => simp
  | some ns => simp [siteIn]

theorem getElem?_of_mem_visitsFrom (har : ∀ s ∈ around, arena[s.index]? = some s.ns)
    (hv : v ∈ visitsFrom arena n around cs) : ∀ s ∈ v.enclosing, arena[s.index]? = some s.ns := by
  induction n generalizing around cs with
  | zero => simp [visitsFrom] at hv
  | succ n ih =>
    obtain ⟨i, -, ns, hns, hv⟩ := mem_visitsFrom_succ.1 hv
    have hsite : ∀ s ∈ siteIn around i ns :: around, arena[s.index]? = some s.ns :=
      forall_mem_cons.2 ⟨hns, har⟩
    rcases hv with rfl | hv
    · exact hsite
    · exact ih hsite hv

/-- The namespaces around a visited one are those that the walk came from, or
    visited as well. -/
theorem exists_visit_of_mem_visitsFrom (hv : v ∈ visitsFrom arena n around cs)
    (hsite : site ∈ v.enclosing) :
    site ∈ around ∨ ∃ u ∈ visitsFrom arena n around cs, u.site = site := by
  induction n generalizing around cs with
  | zero => cases hv
  | succ n ih =>
    obtain ⟨i, hi, ns, hns, hv⟩ := mem_visitsFrom_succ.1 hv
    have hfirst : site ∈ siteIn around i ns :: around →
        site ∈ around ∨ ∃ u ∈ visitsFrom arena (n + 1) around cs, u.site = site := by
      intro hmem
      rcases mem_cons.1 hmem with rfl | hmem
      · exact .inr ⟨_, mem_visitsFrom_succ.2 ⟨i, hi, ns, hns, .inl rfl⟩, rfl⟩
      · exact .inl hmem
    rcases hv with rfl | hv
    · exact hfirst hsite
    · rcases ih hv with hmem | ⟨u, hu, rfl⟩
      · exact hfirst hmem
      · exact .inr ⟨u, mem_visitsFrom_succ.2 ⟨i, hi, ns, hns, .inr hu⟩, rfl⟩

theorem around_of_mem_visitsFrom (hv : v ∈ visitsFrom arena n around cs) :
    v.site = siteIn v.around v.site.index v.site.ns ∧ (v.around = around ∧ v.site.index ∈ cs ∨
      ∃ u ∈ visitsFrom arena n around cs, v.around = u.enclosing ∧
        v.site.index ∈ u.site.ns.scope.children) := by
  induction n generalizing around cs with
  | zero => cases hv
  | succ n ih =>
    obtain ⟨i, hi, ns, hns, rfl | hv⟩ := mem_visitsFrom_succ.1 hv
    · exact ⟨rfl, .inl ⟨rfl, hi⟩⟩
    · obtain ⟨hsite, heq | ⟨u, hu, heq⟩⟩ := ih hv
      · exact ⟨hsite, .inr ⟨_, mem_visitsFrom_succ.2 ⟨i, hi, ns, hns, .inl rfl⟩, heq⟩⟩
      · exact ⟨hsite, .inr ⟨u, mem_visitsFrom_succ.2 ⟨i, hi, ns, hns, .inr hu⟩, heq⟩⟩

theorem suffix_around_of_mem_visitsFrom (hv : v ∈ visitsFrom arena n around cs) :
    around <:+ v.around := by
  induction n generalizing around cs with
  | zero => cases hv
  | succ n ih =>
    obtain ⟨i, -, ns, -, rfl | hv⟩ := mem_visitsFrom_succ.1 hv
    · exact suffix_refl _
    · exact (suffix_cons _ _).trans (ih hv)

theorem exists_root_of_mem_walk (hd : d.top.children = [i]) (hv : v ∈ d.walk) :
    ∃ ns, d.arena[i]? = some ns ∧ ⟨i, ns, ns.name⟩ ∈ v.enclosing := by
  rw [walk, hd] at hv
  cases hn : d.arena.length with
  | zero =>
    rw [hn] at hv
    cases hv
  | succ n =>
    rw [hn] at hv
    obtain ⟨j, hj, ns, hns, hmeets⟩ := mem_visitsFrom_succ.1 hv
    rw [mem_singleton.1 hj] at hns hmeets
    refine ⟨ns, hns, ?_⟩
    rcases hmeets with rfl | hinside
    · exact mem_cons_self
    · exact mem_cons_of_mem _
        ((suffix_around_of_mem_visitsFrom hinside).subset mem_cons_self)

theorem exists_visit_of_mem_enclosing (hv : v ∈ d.walk) (hsite : site ∈ v.enclosing) :
    ∃ u ∈ d.walk, u.site = site := by
  rcases exists_visit_of_mem_visitsFrom hv hsite with hnil | h
  · cases hnil
  · exact h

theorem getElem?_of_mem_walk (hv : v ∈ d.walk) : ∀ s ∈ v.enclosing, d.arena[s.index]? = some s.ns :=
  getElem?_of_mem_visitsFrom (by simp) hv

theorem getElem?_site_of_mem_walk (hv : v ∈ d.walk) : d.arena[v.site.index]? = some v.site.ns :=
  getElem?_of_mem_walk hv v.site mem_cons_self

/-! ## The layout of a text -/

/-- Where namespaces hang: what is around each, and what it lists. -/
def threads (arena : List Namespace) : List (Option Nat × List Nat) :=
  arena.map fun ns => (ns.parent, ns.scope.children)

/-- Namespaces from an index on, as a text lays them out inside `p`: those with the
    indices in the third argument, each before what is inside it. -/
inductive Laid : Option Nat → Nat → List Nat → List (Option Nat × List Nat) → Prop
  | nil {p k} : Laid p k [] []
  | cons {p k inside inner cs rest} : Laid (some k) (k + 1) inside inner →
      Laid p (k + 1 + inner.length) cs rest → Laid p k (k :: cs) ((p, inside) :: (inner ++ rest))

variable {p : Option Nat} {k : Nat} {xs ys : List (Option Nat × List Nat)}

theorem Laid.append {cs' : List Nat} (h : Laid p k cs xs) (h' : Laid p (k + xs.length) cs' ys) :
    Laid p k (cs ++ cs') (xs ++ ys) := by
  induction h with
  | nil => simpa using h'
  | @cons p k inside inner cs rest hinside _ _ ih =>
    rw [cons_append, cons_append, append_assoc]
    refine .cons hinside (ih ?_)
    have hlength : k + ((p, inside) :: (inner ++ rest)).length = k + 1 + inner.length +
        rest.length := by
      simp only [length_cons, length_append]; omega
    rwa [hlength] at h'

/-- A walk meets what a text lays out in the order of the arena. -/
theorem Laid.index_visitsFrom (h : Laid p k cs xs) (before after : List (List Nat))
    (ha : arena.map (·.scope.children) = before ++ xs.map Prod.snd ++ after)
    (hk : before.length = k) (hn : xs.length ≤ n) (around : List Site) :
    (visitsFrom arena n around cs).map (·.site.index) = List.range' k xs.length := by
  induction h generalizing before after n around with
  | nil => cases n <;> simp [visitsFrom]
  | @cons p k inside inner cs rest _ _ ihi ihr =>
    obtain ⟨n, rfl⟩ : ∃ m, n = m + 1 := ⟨n - 1, by simp at hn; omega⟩
    simp only [length_cons, length_append] at hn
    have hget : (arena[k]?).map (·.scope.children) = some inside := by
      rw [← getElem?_map, ha]
      simp [← hk]
    obtain ⟨ns, hns, hin⟩ := Option.map_eq_some_iff.1 hget
    -- what is inside needs one level less, what comes next needs the same
    have hrest := ihr (before ++ inside :: inner.map Prod.snd) after (by simp [ha]) (by simp; omega)
      (show rest.length ≤ n + 1 by omega) around
    have hinner :=
      fun site => ihi (before ++ [inside]) (rest.map Prod.snd ++ after) (by simp [ha])
      (by simp [hk]) (show inner.length ≤ n by omega) (site :: around)
    rw [visitsFrom] at hrest ⊢
    rw [flatMap_cons, map_append, hrest, hns]
    simp only [map_cons, hin, hinner]
    rw [length_cons, length_append, range'_succ, cons_append, range'_append_1]

/-! ## Walks that meet every namespace -/

/-- The walk through a draft meets every namespace of its arena exactly once. -/
def Covered (d : Draft) : Prop := (d.walk.map (·.site.index)).Perm (List.range d.arena.length)

theorem index_eq_head_route (v : Visit) : v.route.head?.map Prod.fst = some v.site.index := rfl

theorem Covered.congr (hd : d.Covered) (htop : d.top.children = e.top.children)
    (h : outline d.arena = outline e.arena) : e.Covered := by
  have hroute := congrArg (List.map fun r => r.head?.map Prod.fst) (route_walk_congr htop h)
  simp only [map_map, Function.comp_def, index_eq_head_route] at hroute
  have hindex : d.walk.map (·.site.index) = e.walk.map (·.site.index) := by
    refine map_injective_iff.2 (fun _ _ => Option.some.inj) ?_
    simpa [Function.comp_def] using hroute
  rw [Covered, ← hindex, ← length_eq_of_outline_eq h]
  exact hd

theorem Covered.nodup (h : d.Covered) : (d.walk.map (·.site.index)).Nodup :=
  h.nodup_iff.2 nodup_range

theorem Covered.exists_visit (h : d.Covered) {ns : Namespace} (hi : d.arena[i]? = some ns) :
    ∃ v ∈ d.walk, v.site.index = i ∧ v.site.ns = ns := by
  have hlt : i < d.arena.length := (List.getElem?_eq_some_iff.1 hi).1
  obtain ⟨v, hv, rfl⟩ := mem_map.1 (h.mem_iff.2 (mem_range.2 hlt))
  have := getElem?_site_of_mem_walk hv
  rw [hi] at this
  exact ⟨v, hv, rfl, (Option.some.inj this).symm⟩

/-- What is made of the namespaces, in the order of the arena and in that of the walk. -/
theorem Covered.mapIdx_perm (h : d.Covered) {β : Type} (f : Nat → Namespace → β) :
    (d.arena.mapIdx f).Perm (d.walk.map fun v => f v.site.index v.site.ns) := by
  have hmap : ∀ i, (d.arena.mapIdx f)[i]? = (d.arena[i]?).map (f i) := fun i => getElem?_mapIdx
  generalize hys : d.arena.mapIdx f = ys at hmap
  have hlength : ys.length = d.arena.length := by rw [← hys, length_mapIdx]
  have hperm := (Perm.map (fun i => ys[i]?) h).filterMap id
  have hwalk : ((d.walk.map (·.site.index)).map fun i => ys[i]?).filterMap id =
      d.walk.map fun v => f v.site.index v.site.ns := by
    rw [map_map, filterMap_map, ← filterMap_eq_map]
    refine filterMap_congr fun v hv => ?_
    simp only [Function.comp_def, id]
    rw [hmap, getElem?_site_of_mem_walk hv]
    rfl
  have hrange : ((List.range d.arena.length).map fun i => ys[i]?).filterMap id = ys := by
    have hsome : (List.range d.arena.length).map (fun i => ys[i]?) = ys.map some := by
      refine ext_getElem (by simp [hlength]) fun i h1 h2 => ?_
      rw [length_map] at h2
      simp [h2]
    rw [hsome, filterMap_map]
    exact filterMap_some
  rw [hwalk, hrange] at hperm
  exact hperm.symm

/-- A draft whose arena is as a text lays it out. -/
def IsLaid (d : Draft) : Prop :=
  ∃ xs, Laid none 0 d.top.children xs ∧ d.arena.map (·.scope.children) = xs.map Prod.snd

theorem IsLaid.covered (h : d.IsLaid) : d.Covered := by
  obtain ⟨xs, hlaid, harena⟩ := h
  have hlength : d.arena.length = xs.length := by simpa using congrArg List.length harena
  rw [Covered, walk, hlaid.index_visitsFrom [] [] (by simp [harena]) rfl hlength.ge [], hlength,
    range_eq_range']

theorem map_adopt {β : Type} {f : Namespace → β}
    (hf : ∀ (ns : Namespace) p, f { ns with parent := p } = f ns) (p : Nat) (cs : List Nat)
    (arena : List Namespace) : (adopt p cs arena).map f = arena.map f :=
  map_modifyAll (fun i : Nat => i) (fun _ ns => { ns with parent := some p })
    (fun _ ns => hf ns _) cs arena

theorem length_adopt (p : Nat) (cs : List Nat) (arena : List Namespace) :
    (adopt p cs arena).length = arena.length := by
  simpa using congrArg List.length (map_adopt (f := (·.name)) (fun _ _ => rfl) p cs arena)

/-- **The walk through a wrapped draft meets every namespace exactly once.** -/
theorem IsLaid.covered_wrap (h : d.IsLaid) : d.wrap.Covered := by
  unfold wrap
  split
  · exact h.covered
  -- the new namespace stands last in the arena and is met first
  · obtain ⟨xs, hlaid, harena⟩ := h
    have hlength : d.arena.length = xs.length := by simpa using congrArg List.length harena
    simp only [Covered, walk, length_append, length_singleton, length_adopt]
    rw [visitsFrom]
    have hroot : ∀ x : Namespace,
        (adopt d.arena.length d.top.children d.arena ++ [x])[d.arena.length]? = some x := by
      intro x
      have := length_adopt d.arena.length d.top.children d.arena
      simp [this]
    simp only [flatMap_cons, flatMap_nil, append_nil, hroot, map_cons]
    have hinner : ∀ (x : Namespace) (around : List Site), (visitsFrom
        (adopt d.arena.length d.top.children d.arena ++ [x]) d.arena.length around
        d.top.children).map (·.site.index) = List.range' 0 d.arena.length :=
      fun x around => by
        rw [hlaid.index_visitsFrom [] [x.scope.children]
          (by rw [map_append, map_adopt fun _ _ => rfl]; simp [harena]) rfl hlength.ge around,
          hlength]
    rw [show (d.top.moveTo d.stem).children = d.top.children from rfl, hinner,
      ← range_eq_range', range_succ]
    exact (perm_append_singleton _ _).symm

end MessageSchema.Draft
