/-
  Drafts that declare the same names.

  Two drafts are the same to lookups if their namespaces stand at the same places and
  declare the same names: names denote the same in both.

  * `Draft.SameBy R`: the lists of names that the namespaces declare are related by `R`;
  * `Draft.Same.surroundings`: what lookups see of drafts that declare the same names.
-/
import MessageSchema.Proofs.Arising
import MessageSchema.Proofs.RelatedLists

namespace MessageSchema.Draft

open List QualifiedName

variable {R : List String → List String → Prop}

/-- The same names, in any order. -/
abbrev SameMembers (xs ys : List String) : Prop := ∀ n, n ∈ xs ↔ n ∈ ys

/-- Two scopes around the same namespaces, with related lists of names. -/
structure Scope.SameBy (R : List String → List String → Prop) (s t : Scope) : Prop where
  children : s.children = t.children
  declared : R s.declared t.declared

abbrev Scope.Same : Scope → Scope → Prop := SameBy SameMembers

structure Namespace.SameBy (R : List String → List String → Prop) (m n : Namespace) : Prop where
  scope : m.scope.SameBy R n.scope
  name : n.name = m.name

abbrev Namespace.Same : Namespace → Namespace → Prop := SameBy SameMembers

/-- An import without its line. -/
def Import.link (i : Import) : String × Option String := (i.path, i.localName)

/-- Two drafts whose namespaces stand at the same places and declare related lists of names. -/
structure SameBy (R : List String → List String → Prop) (d e : Draft) : Prop where
  top : d.top.SameBy R e.top
  arena : Forall₂ (Namespace.SameBy R) d.arena e.arena
  imports : d.imports.map Import.link = e.imports.map Import.link
  rest : e = { d with top := e.top, arena := e.arena, imports := e.imports }

abbrev Same : Draft → Draft → Prop := SameBy SameMembers

theorem Scope.SameBy.mapNames {s t : Scope} (h : s.Same t) (f g : TypeName → TypeName) :
    (s.mapNames f).Same (t.mapNames g) := by
  refine ⟨h.children, fun n => ?_⟩
  rw [Scope.declared_mapNames, Scope.declared_mapNames]
  exact h.declared n

/-! ## What lookups see -/

/-- Two regions of one name with related lists of names. -/
structure Region.SameBy (R : List String → List String → Prop) (r r' : Region) : Prop where
  qualified : r.qualified = r'.qualified
  names : R r.names r'.names

abbrev Region.Same : Region → Region → Prop := SameBy SameMembers

theorem Region.SameBy.eq {r r' : Region} (h : r.SameBy Eq r') : r = r' := by
  cases r
  cases r'
  obtain ⟨rfl, rfl⟩ := h
  rfl

/-- Two files whose regions have related lists of names. -/
structure Symbols.SameBy (R : List String → List String → Prop) (s s' : Symbols) : Prop where
  regions : Forall₂ (Region.SameBy R) s.regions s'.regions
  root : s.root.SameBy R s'.root

abbrev Symbols.Same : Symbols → Symbols → Prop := SameBy SameMembers

theorem regions_eq {rs rs' : List Region} (h : Forall₂ (Region.SameBy Eq) rs rs') : rs = rs' := by
  rw [← forall₂_eq_eq_eq]
  exact h.imp fun _ _ => Region.SameBy.eq

theorem Symbols.SameBy.eq {s s' : Symbols} (h : s.SameBy Eq s') : s = s' := by
  cases s
  cases s'
  obtain ⟨hregions, hroot⟩ := h
  obtain rfl := regions_eq hregions
  obtain rfl := hroot.eq
  rfl

/-- The namespaces around visits along one route. -/
theorem forall₂_enclosing {Q : Namespace → Namespace → Prop} {d e : Draft}
    (hQ : Forall₂ Q d.arena e.arena) {u v : Visit} (hu : u ∈ d.walk) (hv : v ∈ e.walk)
    (hroute : u.route = v.route) :
    Forall₂ (fun s t : Site => s.address = t.address ∧ Q s.ns t.ns) u.enclosing v.enclosing := by
  refine (forall₂_mem (forall₂_of_map_eq hroute)).imp fun s t ⟨hs, ht, haddress⟩ => ⟨haddress, ?_⟩
  have hindex : s.index = t.index := congrArg Prod.fst haddress
  have ht := getElem?_of_mem_walk hv t ht
  rw [← hindex] at ht
  exact forall₂_getElem? hQ (getElem?_of_mem_walk hu s hs) ht

namespace SameBy

variable {d e : Draft} (h : d.SameBy R e)
include h

theorem file : e.file = d.file := by rw [h.rest]

theorem stem : e.stem = d.stem := by rw [h.rest]

theorem attached : e.attached = d.attached := by rw [h.rest]

theorem outline : outline d.arena = Draft.outline e.arena :=
  map_eq_of_forall₂ (h.arena.imp fun _ _ hn => by rw [hn.scope.children, hn.name])

theorem rootIndex? : e.rootIndex? = d.rootIndex? :=
  rootIndex?_congr h.top.children.symm h.stem h.outline.symm

theorem walk : Forall₂ (fun u v : Visit => u.route = v.route) d.walk e.walk :=
  forall₂_of_map_eq (route_walk_congr h.top.children h.outline)

/-- The namespaces at matching visits stand at the same places. -/
theorem visits {Q : Namespace → Namespace → Prop} (hQ : Forall₂ Q d.arena e.arena) :
    Forall₂ (fun u v : Visit => u.route = v.route ∧ Q u.site.ns v.site.ns) d.walk e.walk := by
  refine (forall₂_mem h.walk).imp fun u v ⟨hu, hv, hroute⟩ => ⟨hroute, ?_⟩
  obtain _ | ⟨hsite, -⟩ := forall₂_enclosing hQ hu hv hroute
  exact hsite.2

/-- Visits along one route see regions that declare the same. -/
theorem regions {u v : Visit} (hu : u ∈ d.walk) (hv : v ∈ e.walk) (hroute : u.route = v.route) :
    Forall₂ (Region.SameBy R) (u.enclosing.map Site.region) (v.enclosing.map Site.region) := by
  rw [forall₂_map_left_iff, forall₂_map_right_iff]
  exact (forall₂_enclosing h.arena hu hv hroute).imp fun s t hs =>
    ⟨congrArg (fun a : Nat × String => some a.2) hs.1, hs.2.scope.declared⟩

theorem sites : Forall₂ (fun s t : Site => s.index = t.index ∧ s.region.SameBy R t.region)
    (d.walk.map (·.site)) (e.walk.map (·.site)) := by
  rw [forall₂_map_left_iff, forall₂_map_right_iff]
  refine (h.visits h.arena).imp fun u v huv => ?_
  obtain ⟨hindex, hqualified⟩ := Visit.site_of_route huv.1
  exact ⟨hindex, congrArg some hqualified, huv.2.scope.declared⟩

theorem symbols : d.symbols.SameBy R e.symbols := by
  have hfile : Region.SameBy R ⟨none, d.top.declared⟩ ⟨none, e.top.declared⟩ :=
    ⟨rfl, h.top.declared⟩
  constructor
  · refine .cons hfile ?_
    rw [forall₂_map_left_iff, forall₂_map_right_iff]
    exact h.sites.imp fun _ _ hs => hs.2
  · simp only [Draft.symbols, h.rootIndex?]
    cases d.rootIndex? with
    | none => exact hfile
    | some i =>
      have hroot := rel_find? h.sites fun (s t : Site) hs => congrArg (fun j => decide (j = i)) hs.1
      obtain ⟨hd, he⟩ | ⟨s, t, hd, he, hs⟩ := rel_cases hroot
      · simp only [Option.bind_some, hd, he]
        exact hfile
      · simp only [Option.bind_some, hd, he]
        exact hs.2

end SameBy

/-! ## What names denote -/

variable {r r' : Region} {s s' : Symbols}

theorem Region.SameBy.find? (h : r.Same r') (name : String) : r.find? name = r'.find? name := by
  have hcontains : r.names.contains name = r'.names.contains name := by
    rw [Bool.eq_iff_iff, contains_iff_mem, contains_iff_mem, h.names]
  rw [Region.find?, Region.find?, hcontains, h.qualified]

theorem Region.SameBy.mem_entities (h : r.Same r') {q : String} (hq : q ∈ r.entities) :
    q ∈ r'.entities := by
  obtain ⟨n, hn, rfl⟩ := mem_map.1 hq
  rw [h.qualified]
  exact mem_map_of_mem ((h.names n).1 hn)

theorem Region.SameBy.symm (h : r.Same r') : r'.Same r :=
  ⟨h.qualified.symm, fun n => (h.names n).symm⟩

theorem Symbols.SameBy.mem_entities (h : s.Same s') (q : String) :
    q ∈ s.entities ↔ q ∈ s'.entities := by
  simp only [Symbols.entities, mem_flatMap]
  constructor
  · rintro ⟨r, hr, hq⟩
    obtain ⟨r', hr', hsame⟩ := exists_right_of_mem h.regions hr
    exact ⟨r', hr', hsame.mem_entities hq⟩
  · rintro ⟨r', hr', hq⟩
    obtain ⟨r, hr, hsame⟩ := exists_left_of_mem h.regions hr'
    exact ⟨r, hr, hsame.symm.mem_entities hq⟩

theorem Symbols.SameBy.contains (h : s.Same s') (q : String) :
    s.entities.contains q = s'.entities.contains q := by
  rw [Bool.eq_iff_iff, contains_iff_mem, contains_iff_mem, h.mem_entities]

/-- Two imports that find the same through one local name. -/
structure NamedImport.Same (i j : NamedImport) : Prop where
  localName : i.localName = j.localName
  find? : ∀ name, i.find? name = j.find? name

structure Surroundings.Same (s s' : Surroundings) : Prop where
  own : s.own.Same s'.own
  plain : Forall₂ Symbols.Same s.plain s'.plain
  named : Forall₂ NamedImport.Same s.named s'.named

namespace Surroundings.Same

variable {s s' : Surroundings} (h : s.Same s') {rs rs' : List Region}
  (hrs : Forall₂ Region.Same rs rs')
include h hrs

theorem lookupPlain (name : String) : s.lookupPlain rs name = s'.lookupPlain rs' name := by
  have hplain : s.plain.findSome? (fun i => i.root.find? name) = s'.plain.findSome? fun i =>
      i.root.find? name :=
    findSome?_eq_of_forall₂ (h.plain.imp fun _ _ hi => hi.root.find? name)
  have hfound : rs.findSome? (fun r => r.find? name) = rs'.findSome? fun r => r.find? name :=
    findSome?_eq_of_forall₂ (hrs.imp fun _ _ hr => hr.find? name)
  rw [Surroundings.lookupPlain, Surroundings.lookupPlain, hplain, hfound]

theorem lookupQualified (name : String) :
    s.lookupQualified rs name = s'.lookupQualified rs' name := by
  have hrelative : rs.map (fun r => join r.qualified name) =
      rs'.map fun r => join r.qualified name :=
    map_eq_of_forall₂ (hrs.imp fun _ _ hr => by rw [hr.qualified])
  have hplain : s.plain.findSome? (fun i => lookupImported i name) =
      s'.plain.findSome? fun i => lookupImported i name := by
    refine findSome?_eq_of_forall₂ (h.plain.imp fun i j hi => ?_)
    simp only [lookupImported, hi.contains, hi.root.qualified]
  have hnamed : (s.named.find? fun i => i.localName = head name).bind (fun i => i.find? name) =
      (s'.named.find? fun i => i.localName = head name).bind fun i => i.find? name := by
    have hrel := rel_find? h.named fun (i j : NamedImport) hi =>
      congrArg (fun l => decide (l = head name)) hi.localName
    exact bind_eq_of_rel hrel fun _ _ hi => hi.find? name
  have hown : s.own.entities.contains = s'.own.entities.contains := funext h.own.contains
  simp only [Surroundings.lookupQualified, hrelative, hplain, hnamed, hown]

/-- **Names denote the same where the same is declared.** -/
theorem lookup (name : String) : s.lookup rs name = s'.lookup rs' name := by
  rw [Surroundings.lookup, Surroundings.lookup, h.lookupPlain hrs, h.lookupQualified hrs]

theorem resolve : s.resolve rs = s'.resolve rs' := by
  funext n
  rw [Surroundings.resolve, Surroundings.resolve, h.lookup hrs]

end Surroundings.Same

/-- Behind the name of its file, no two declarations of a draft have the same name. -/
def Apart (d : Draft) : Prop :=
  ∀ q ∈ d.symbols.entities, ∀ q' ∈ d.symbols.entities,
    (strip? d.stem q).getD q = (strip? d.stem q').getD q' → q = q'

/-- An import as it is seen through a local name. -/
def namedImport (k : String) (d : Draft) : NamedImport := ⟨k, d.stem, d.symbols.entities.eraseDups⟩

theorem Apart.find?_eq_some_iff {d : Draft} (h : d.Apart) {k name q : String} :
    (d.namedImport k).find? name = some q ↔ q ∈ d.symbols.entities ∧
      (d.namedImport k).outward q = name := by
  constructor
  · intro hfind
    have hmem := mem_reverse.1 (mem_of_find?_eq_some hfind)
    exact ⟨mem_eraseDups.1 hmem, by simpa using find?_some hfind⟩
  · rintro ⟨hq, hname⟩
    have hsome : ((d.namedImport k).find? name).isSome = true := by
      refine find?_isSome.2 ⟨q, mem_reverse.2 (mem_eraseDups.2 hq), ?_⟩
      exact decide_eq_true hname
    obtain ⟨q', hfind⟩ := Option.isSome_iff_exists.1 hsome
    have hmem := mem_eraseDups.1 (mem_reverse.1 (mem_of_find?_eq_some hfind))
    have hname' : (d.namedImport k).outward q' = name := by simpa using find?_some hfind
    have hsame := hname'.trans hname.symm
    simp only [NamedImport.outward, String.append_right_inj] at hsame
    rw [hfind, h q' hmem q hq hsame]

namespace SameBy

variable {d e : Draft} (h : d.Same e)
include h

theorem apart (hd : d.Apart) : e.Apart := by
  intro q hq q' hq'
  rw [h.stem]
  exact hd q ((h.symbols.mem_entities q).2 hq) q' ((h.symbols.mem_entities q').2 hq')

theorem namedImport (hd : d.Apart) (k : String) : (d.namedImport k).Same (e.namedImport k) := by
  refine ⟨rfl, fun name => Option.ext fun q => ?_⟩
  have houtward : (e.namedImport k).outward q = (d.namedImport k).outward q := by
    rw [NamedImport.outward, NamedImport.outward, show (e.namedImport k).stem =
      (d.namedImport k).stem from h.stem]
    rfl
  rw [hd.find?_eq_some_iff, (h.apart hd).find?_eq_some_iff, houtward, h.symbols.mem_entities]

theorem any_localName (k : String) :
    d.imports.any (·.localName = some k) = e.imports.any (·.localName = some k) := by
  have hany : ∀ is : List Import, is.any (·.localName = some k) =
      (is.map Import.link).any (·.2 = some k) :=
    fun is => by rw [any_map]; rfl
  rw [hany, hany, h.imports]

/-- **Names of a draft denote the same where the same is declared**, in the draft and in its
    imports. -/
theorem surroundings {is js : List (String × Draft)}
    (his : Forall₂ (fun i j => i.1 = j.1 ∧ i.2.Apart ∧ i.2.Same j.2) is js) :
    (d.surroundings is).Same (e.surroundings js) := by
  refine ⟨h.symbols, ?_, ?_⟩
  · simp only [Draft.surroundings]
    rw [forall₂_map_left_iff, forall₂_map_right_iff]
    refine (rel_filter (fun i j hij => ?_) his).imp fun _ _ hij => hij.2.2.symbols
    simp only [hij.1, h.any_localName]
  · simp only [Draft.surroundings]
    rw [forall₂_map_left_iff, forall₂_map_right_iff]
    refine (rel_filter (fun i j hij => ?_) his).imp fun i j hij => ?_
    · simp only [hij.1, h.any_localName]
    · obtain ⟨k, x⟩ := i
      obtain ⟨_, y⟩ := j
      obtain ⟨rfl, hx, hxy⟩ := hij
      exact hxy.namedImport hx k

theorem useColons : d.useColons.Same e.useColons := by
  refine ⟨h.top.mapNames _ _, ?_, h.imports, by rw [h.rest]; rfl⟩
  simp only [Draft.useColons]
  rw [forall₂_map_left_iff, forall₂_map_right_iff]
  exact h.arena.imp fun m n hn => ⟨hn.scope.mapNames _ _, hn.name⟩

end SameBy

theorem same_useColons (d : Draft) : d.Same d.useColons := by
  have hscope : ∀ s : Scope, s.Same (s.mapNames TypeName.useColons) := fun s =>
    ⟨rfl, fun n => by rw [Scope.declared_mapNames]⟩
  exact ⟨hscope _, forall₂_map_right_iff.2 (forall₂_same.2 fun ns _ => ⟨hscope _, rfl⟩), rfl, rfl⟩

theorem isWrapped_useColons (d : Draft) : d.useColons.isWrapped = d.isWrapped := by
  have hnothing : d.useColons.top.declaresNothing = d.top.declaresNothing := by
    simp [useColons, Scope.mapNames, Scope.declaresNothing]
  rw [isWrapped, isWrapped, hnothing, (same_useColons d).rootIndex?]

end MessageSchema.Draft
