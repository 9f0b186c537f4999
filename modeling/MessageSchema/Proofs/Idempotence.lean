/-
  Running one pass again.

  A pass that has run through has nothing left to do: the file is wrapped, the names
  have their double colons, what could be found has been found, no type is left inline,
  and every import that leads somewhere is attached.  This holds of every draft that
  arises from a text, whatever is attached to it, even the draft itself.
-/
import MessageSchema.Proofs.RepeatedPasses

namespace MessageSchema

open List Draft

namespace Draft

variable {d : Draft}

/-! ## What lookups know of imports -/

/-- What lookups know of an import: its key, and the names of its file. -/
def importView (i : String × Draft) : String × String × Symbols := (i.1, i.2.stem, i.2.symbols)

variable {e : Draft} {is js imports : List (String × Draft)}

theorem surroundings_congr (h : d.SameBy Eq e) (himports : d.imports = e.imports)
    (hview : is.map importView = js.map importView) : d.surroundings is = e.surroundings js := by
  have hplain : ∀ xs : List (String × Draft),
      (xs.filter fun i => !e.imports.any (·.localName = some i.1)).map (·.2.symbols) =
        ((xs.map importView).filter fun i => !e.imports.any (·.localName = some i.1)).map
        (·.2.2) := by
    intro xs
    rw [filter_map, map_map]
    rfl
  have hnamed : ∀ xs : List (String × Draft),
      (xs.filter fun i => e.imports.any (·.localName = some i.1)).map
          (fun i => (⟨i.1, i.2.stem, i.2.symbols.entities.eraseDups⟩ : NamedImport)) =
        ((xs.map importView).filter fun i => e.imports.any (·.localName = some i.1)).map
          fun i => ⟨i.1, i.2.1, i.2.2.entities.eraseDups⟩ := by
    intro xs
    rw [filter_map, map_map]
    rfl
  simp only [surroundings, h.symbols.eq, himports, hplain, hnamed, hview]

/-! ## Single passes -/

theorem wrap_wrap (d : Draft) : d.wrap.wrap = d.wrap := by
  rw [wrap, if_pos (isWrapped_wrap d)]

/-- What resolution leaves as it is in a namespace. -/
def Namespace.outline (ns : Namespace) : String × List Nat × List String :=
  (ns.name, ns.scope.children, ns.scope.declared)

theorem sameBy_resolve (h : d.resolve imports = .ok e) : e.SameBy Eq d := by
  have hview : e.arena.map Namespace.outline = d.arena.map Namespace.outline :=
    map_resolve (fun _ _ => rfl)
      (fun f ns => by simp only [Namespace.outline, Scope.declared_mapNames]; rfl) h
  obtain ⟨-, rfl⟩ := resolve_eq h
  refine ⟨⟨rfl, rfl⟩, (forall₂_of_map_eq hview).imp fun m n hmn => ?_, rfl, rfl⟩
  obtain ⟨hname, hchildren, hdeclared⟩ := Prod.mk.inj hmn |>.imp_right Prod.mk.inj
  exact ⟨⟨hchildren, hdeclared⟩, hname.symm⟩

theorem Surroundings.resolve_resolve (s : Surroundings) (enclosing : List Region) (n : TypeName) :
    s.resolve enclosing (s.resolve enclosing n) = s.resolve enclosing n := by
  cases hmark : (s.resolve enclosing n).resolved with
  | true => rw [resolve, if_pos hmark]
  | false => rw [(lookup_of_unmarked hmark).1, (lookup_of_unmarked hmark).1]

/-- **Resolving again changes nothing**, with imports that declare what they did. -/
theorem resolve_resolve (hd : d.Covered) (h : d.resolve is = .ok e)
    (hview : js.map importView = is.map importView) : e.resolve js = .ok e := by
  have hsame := sameBy_resolve h
  obtain ⟨hwrapped, heq⟩ := resolve_eq h
  have hsurroundings : e.surroundings js = d.surroundings is :=
    surroundings_congr hsame (by rw [heq]) hview
  -- a namespace after resolution, along the route that led to it before
  have hbefore : ∀ v ∈ e.walk, ∃ u ∈ d.walk, u.route = v.route ∧ v.site.ns = { u.site.ns with
      qualified := some u.site.qualified, scope := u.resolved (d.surroundings is) } := by
    intro v hv
    have hmem := mem_map_of_mem (f := Visit.route) hv
    rw [route_walk_congr hsame.top.children hsame.outline] at hmem
    obtain ⟨u, hu, hroute⟩ := mem_map.1 hmem
    have hget := getElem?_resolve hd h hu
    rw [(Visit.site_of_route hroute).1, getElem?_site_of_mem_walk hv] at hget
    exact ⟨u, hu, hroute, Option.some.inj hget⟩
  refine resolve_eq_self (hd.congr hsame.top.children.symm hsame.outline.symm) ?_ ?_ ?_
  · rw [isWrapped, ← hsame.rootIndex?, heq]
    exact hwrapped
  · intro v hv
    obtain ⟨u, -, hroute, hns⟩ := hbefore v hv
    rw [hns, ← (Visit.site_of_route hroute).2]
  · intro v hv
    obtain ⟨u, hu, hroute, hns⟩ := hbefore v hv
    rw [Visit.resolved, hsurroundings, regions_eq (hsame.regions hv hu hroute.symm), hns]
    refine Scope.mapNames_eq_self_iff.2 fun n hn => ?_
    simp only [Visit.resolved, Scope.names_mapNames] at hn
    obtain ⟨n, -, rfl⟩ := mem_map.1 hn
    exact Surroundings.resolve_resolve _ _ n

theorem resolve_eq_error_iff {fault : Fault} :
    d.resolve imports = .error fault ↔ d.isWrapped = false ∧
      fault = { cause := .notWrapped resolutionName d.stem, file := d.file, line := 1 } := by
  rw [resolve]
  cases d.isWrapped <;> simp [eq_comm]

theorem inlineFree_promote (hd : d.Covered) (h : d.promote = (e, none)) : e.InlineFree := by
  obtain ⟨top, fault, htop⟩ : ∃ s fault, d.top.promote none = (s, fault) := ⟨_, _, rfl⟩
  obtain ⟨arena, fault', harena⟩ : ∃ a f, promoteAt (d.walk.map (·.site.index)) d.arena = (a, f) :=
    ⟨_, _, rfl⟩
  rw [promote, htop] at h
  cases fault with
  | some fault => cases h
  | none =>
    simp only [harena] at h
    cases h
    have hpromoted := promoted_promoteAt hd.nodup harena
    refine ⟨(Scope.promote_eq_iff.1 htop).2 ▸ Scope.inlineFree_promoted _ _, fun ns hns => ?_⟩
    obtain ⟨i, hi⟩ := mem_iff_getElem?.1 hns
    have hlt : i < d.arena.length := by
      rw [← length_eq_of_outline_eq hpromoted.outline]
      exact (List.getElem?_eq_some_iff.1 hi).1
    have hindex : i ∈ d.walk.map (·.site.index) := hd.mem_iff.2 (mem_range.2 hlt)
    obtain ⟨s, hs, hget⟩ := hpromoted.scope i hindex _ (getElem?_eq_getElem hlt)
    rw [hi] at hget
    rw [Option.some.inj hget]
    exact (Scope.promote_eq_iff.1 hs).2 ▸ Scope.inlineFree_promoted _ _

/-- **Promoting again changes nothing.** -/
theorem promote_promote (hd : d.Covered) (h : d.promote = (e, none)) : e.promote = (e, none) :=
  promote_of_inlineFree (inlineFree_promote hd h)

end Draft

/-! ## Passes in a workspace -/

namespace Workspace

variable {w : Workspace} {id : DraftId}

theorem runPass_eq {d : Draft} (hid : w.draft? id = some d) (p : Pass) :
    w.runPass p id = (w.put id (p.run w d).1 w.events, (p.run w d).2) := by
  rw [runPass, hid]
  rfl

theorem importView_attachedTo_put {d e : Draft} (hid : w.draft? id = some d) (h : e.SameBy Eq d)
    (hattached : e.attached = d.attached) (events : List Event) :
    ((w.put id e events).attachedTo e).map importView = (w.attachedTo d).map importView := by
  rw [attachedTo, attachedTo, hattached, map_filterMap, map_filterMap]
  refine filterMap_congr fun entry _ => ?_
  rw [Option.map_map, Option.map_map]
  -- the draft may be attached to itself
  by_cases hself : entry.2 = id
  · rw [hself, draft?_put_self hid, hid]
    simp [importView, h.stem, h.symbols.eq]
  · rw [draft?_put_of_ne w hself]

/-- **A pass that has run through has nothing left to do.** -/
theorem run_run {d d' : Draft} (hid : w.draft? id = some d) (hd : d.Covered) {p : Pass}
    (hp : p ∈ Pass.multi) (h : p.run w d = (d', none)) :
    p.run (w.put id d' w.events) d' = (d', none) := by
  simp only [Pass.multi, mem_cons, not_mem_nil, or_false] at hp
  rcases hp with rfl | rfl | rfl | rfl | rfl
  · cases h
    simp only [Pass.wrap, wrap_wrap]
  · obtain ⟨e, fault, he⟩ : ∃ e fault, d.attach (w.imported? d) = (e, fault) := ⟨_, _, rfl⟩
    simp only [Pass.attach, he, Prod.mk.injEq, Option.map_eq_none_iff] at h
    obtain ⟨rfl, rfl⟩ := h
    have hfile : e.file = d.file := by
      rw [← show (d.attach (w.imported? d)).1 = e by rw [he]]
      rfl
    have hfind : (w.put id e w.events).imported? e = w.imported? d := by
      funext i
      rw [imported?, imported?, target, target, hfile]
      rfl
    have hpath : ∀ i j : Import, i.path = j.path → w.imported? d i = w.imported? d j := by
      intro i j hij
      rw [imported?, imported?, target, target, hij]
    have hagain := attach_attach hpath he
    simp [Pass.attach, hfind, hagain]
  · cases h
    simp only [Pass.useColons, useColons_useColons]
  · cases he : d.resolve (w.attachedTo d) with
    | error fault => simp [Pass.resolve, he] at h
    | ok e =>
      simp only [Pass.resolve, he, Prod.mk.injEq, and_true] at h
      subst h
      have hsame := sameBy_resolve he
      have hattached : e.attached = d.attached := by rw [(resolve_eq he).2]
      have hagain := resolve_resolve hd he (importView_attachedTo_put hid hsame hattached w.events)
      simp only [Pass.resolve, hagain]
  · obtain ⟨e, fault, he⟩ : ∃ e fault, d.promote = (e, fault) := ⟨_, _, rfl⟩
    simp only [Pass.promote, he, Prod.mk.injEq, Option.map_eq_none_iff] at h
    obtain ⟨rfl, rfl⟩ := h
    simp [Pass.promote, promote_promote hd he]

/-- **Every pass is idempotent.**  Take any draft that arises from a text by any passes,
    in any workspace and with whatever attached to it: a pass that runs through on it
    runs through again and leaves the workspace as it is.  Resolution breaks down just
    if the file is not wrapped, and then changes nothing. -/
theorem runPass_runPass {w : Workspace} {id : DraftId} {d : Draft} (hid : w.draft? id = some d)
    (hd : d.Arises) :
    (∀ p ∈ Pass.multi, ∀ w', w.runPass p id = (w', none) → w'.runPass p id = (w', none)) ∧
    ((w.runPass .resolve id).2 = none ↔ d.isWrapped = true) ∧
    (d.isWrapped = false → w.runPass .resolve id = (w, some (.fault
      { cause := .notWrapped Draft.resolutionName d.stem, file := d.file, line := 1 }))) := by
  refine ⟨fun p hp w' h => ?_, ?_, fun hwrapped => ?_⟩
  · rw [runPass_eq hid, Prod.mk.injEq] at h
    obtain ⟨rfl, hnone⟩ := h
    have hagain := run_run hid hd.orderly.covered hp (Prod.ext rfl hnone)
    rw [runPass_eq (draft?_put_self hid _ _), hagain]
    simp [put]
  · rw [runPass_eq hid]
    simp only [Pass.resolve]
    cases h : d.resolve (w.attachedTo d) with
    | error fault => simp [(resolve_eq_error_iff.1 h).1]
    | ok e => simp [(resolve_eq h).1]
  · have hfault : d.resolve (w.attachedTo d) = .error _ := resolve_eq_error_iff.2 ⟨hwrapped, rfl⟩
    rw [runPass_eq hid]
    simp only [Pass.resolve, hfault, put_self hid]

/-- A workspace after some passes on its first draft. -/
def runFirst (ps : List Pass) (w : Workspace) : Workspace :=
  ps.foldl (fun w p => (w.runPass p 0).1) w

theorem arises_runFirst {ps : List Pass} (hps : ps ⊆ Pass.multi)
    (h : ∃ d, w.draft? 0 = some d ∧ d.Arises) :
    ∃ d, (w.runFirst ps).draft? 0 = some d ∧ d.Arises := by
  refine foldlRecOn (motive := fun w => ∃ d, Workspace.draft? w 0 = some d ∧ d.Arises) _ _ h ?_
  rintro w ⟨d, hid, hd⟩ p hp
  rw [runPass_eq hid]
  exact ⟨_, draft?_put_self hid _ _, .run w hd (hps hp)⟩

/-- A file that imports itself: it cannot be resolved as it is read; once it is wrapped
    and attached to itself, resolution finds its message, and then finds nothing more. -/
theorem runPass_runPass_self :
    ∃ raw w w', Draft.read "/a.def" "import \"a\" message M\x7bx:M\x7d" = .ok raw ∧
    (holding raw).runPass .resolve 0 = (holding raw, some (.fault
      { cause := .notWrapped Draft.resolutionName "a", file := "/a.def", line := 1 })) ∧
    w = (holding raw).runFirst [.wrap, .attach] ∧ (w.draft? 0).map (·.attached.find? "a") =
      some (some 0) ∧
    w.mentioned = some [("M", false)] ∧ w.runPass .resolve 0 = (w', none) ∧
    w'.mentioned = some [("a::M", true)] ∧ w'.runPass .resolve 0 = (w', none) := by
  have hall : (read "/a.def" "import \"a\" message M\x7bx:M\x7d").toOption.map (fun raw =>
      [(raw.isWrapped, ((holding raw).runFirst [.wrap, .attach]).mentioned),
        ((((holding raw).runFirst [.wrap, .attach]).runPass .resolve 0).2.isNone,
          (((holding raw).runFirst [.wrap, .attach]).runPass .resolve 0).1.mentioned)]) =
      some [(false, some [("M", false)]), (true, some [("a::M", true)])] := by
    decide +kernel
  have hself : (read "/a.def" "import \"a\" message M\x7bx:M\x7d").toOption.map (fun raw =>
      (((holding raw).runFirst [.wrap, .attach]).draft? 0).map (·.attached.find? "a")) =
      some (some (some 0)) := by
    decide +kernel
  obtain ⟨raw, hread, hall⟩ := exists_of_map_toOption hall
  simp only [Prod.mk.injEq, List.cons.injEq, and_true, Option.isNone_iff_eq_none] at hall
  obtain ⟨⟨hwrapped, hbefore⟩, hnone, hafter⟩ := hall
  rw [hread] at hself
  obtain ⟨-, hfile, hstem⟩ := read_asRead hread
  have hname : Path.stem "/a.def" = "a" := by decide +kernel
  have hraw : raw.Arises := .read hread
  obtain ⟨-, -, hbroken⟩ := runPass_runPass (show (holding raw).draft? 0 = some raw from rfl) hraw
  have hpasses : [Pass.wrap, .attach] ⊆ Pass.multi := by simp [Pass.multi]
  obtain ⟨d, hid, hd⟩ :=
    arises_runFirst hpasses ⟨raw, show (holding raw).draft? 0 = some raw from rfl, hraw⟩
  obtain ⟨hagain, -, -⟩ := runPass_runPass hid hd
  have hrun : ((holding raw).runFirst [.wrap, .attach]).runPass .resolve 0 =
      ((((holding raw).runFirst [.wrap, .attach]).runPass .resolve 0).1, none) := Prod.ext rfl hnone
  refine ⟨raw, _, _, hread, ?_, rfl, Option.some.inj hself, hbefore, hrun, hafter,
    hagain .resolve (by simp [Pass.multi]) _ hrun⟩
  rw [hbroken hwrapped, hstem, hname, hfile]

end Workspace

end MessageSchema
