/-
  Enumerations along chains of parents.

  `lib.Lineage f above e` says that `above` are the ancestors of `e`, the first one
  without a parent, in whatever files they are declared; `lib.Lists` relates an
  enumeration of a model to what is written for it in the text of its file.
-/
import MessageSchema.Proofs.Ancestors
import MessageSchema.Proofs.ValueMerging

namespace MessageSchema

open List Draft

namespace Draft

variable {s : Scope} {e : Enumeration}

/-! ## What is written in a text -/

/-- The enumerations of a scope: those that are declared, and those that are written in
    place of a field type. -/
inductive Scope.Enumerates (s : Scope) (e : Enumeration) : Prop
  | declared : e ∈ s.enums ++ s.options → Enumerates s e
  | inline {m f kind raws} : m ∈ s.messages → f ∈ m.fields → f.type.inline? = some (kind, raws) →
      f.declaration m.name kind raws = .ok e → Enumerates s e

/-- A draft has an enumeration with a qualified name. -/
def Enumerates (d : Draft) (q : String) (e : Enumeration) : Prop :=
  ∃ v ∈ d.walk, v.site.ns.scope.Enumerates e ∧ QualifiedName.join (some v.site.qualified) e.name = q

variable {file home : String}

theorem Scope.WrittenIn.moveTo (h : s.WrittenIn file home) :
    (s.moveTo home).WrittenIn file home := by
  refine ⟨forall_mem_map.2 fun _ _ => rfl, forall_mem_map.2 h.field, ?_,
    forall_mem_map.2 fun _ _ => rfl⟩
  rw [Scope.moveTo, ← map_append]
  exact forall_mem_map.2 fun e he => ⟨rfl, (h.enumeration e he).2⟩

theorem Scope.WrittenIn.numberedIn (h : s.WrittenIn file home) (he : s.Enumerates e) :
    e.NumberedIn file home := by
  cases he with
  | declared he => exact h.enumeration e he
  | @inline m f kind raws hm hf _ he =>
    obtain ⟨values, hvalues, he⟩ := bind_eq_ok he
    cases he
    obtain ⟨rfl, rfl⟩ := h.field m hm f hf
    exact ⟨rfl, raws, hvalues⟩

theorem writtenIn_wrap {text : String} {raw : Draft} (h : read file text = .ok raw) :
    ∀ ns ∈ raw.wrap.arena, (ns.name ≠ "" ∨ ns.name = raw.stem) ∧
      ns.scope.WrittenIn file ns.name := by
  obtain ⟨htop, harena⟩ := writtenIn_of_read h
  intro ns hns
  rcases mem_arena_wrap hns with ⟨ns', hns', hname, hscope⟩ | ⟨hname, hscope⟩
  · rw [hname, hscope]
    exact ⟨.inl (harena ns' hns').1, (harena ns' hns').2⟩
  · rw [hname, hscope]
    exact ⟨.inr rfl, htop.moveTo⟩

/-! ## What the passes leave -/

theorem Scope.enumerates_of_mapNames {g : TypeName → TypeName} (h : (s.mapNames g).Enumerates e) :
    ∃ e', s.Enumerates e' ∧ e = { e' with parent := e.parent } := by
  cases h with
  | declared he =>
    rcases mem_append.1 he with he | he
    · obtain ⟨e', he', rfl⟩ := mem_map.1 he
      exact ⟨e', .declared (mem_append_left _ he'), rfl⟩
    · exact ⟨e, .declared (mem_append_right _ he), rfl⟩
  | inline hm hf hinline he =>
    obtain ⟨m, hm', rfl⟩ := mem_map.1 hm
    obtain ⟨f, hf', rfl⟩ := mem_map.1 hf
    rw [FieldType.inline?_mapNames] at hinline
    exact ⟨e, .inline hm' hf' hinline he, rfl⟩

theorem Scope.enumerates_of_promote {home : Option String} {s' : Scope}
    (h : s.promote home = (s', none)) (he : e ∈ s'.enums ++ s'.options) : s.Enumerates e := by
  obtain ⟨-, rfl⟩ := Scope.promote_eq_iff.1 h
  -- what is promoted was written in place of a field type
  have hnew : e ∈ promotions s.messages → s.Enumerates e := by
    intro he
    obtain ⟨m, hm, he⟩ := mem_flatMap.1 he
    obtain ⟨f, hf, he⟩ := mem_filterMap.1 he
    obtain ⟨kind, raws, hinline, he⟩ := Field.promoted?_eq_some_iff.1 he
    exact .inline hm hf hinline he
  rcases mem_append.1 he with he | he
  · rcases mem_append.1 he with he | he
    · exact .declared (mem_append_left _ he)
    · exact hnew (mem_filter.1 he).1
  · rcases mem_append.1 he with he | he
    · exact .declared (mem_append_right _ he)
    · exact hnew (mem_filter.1 he).1

/-- **The passes leave values as they were first numbered.** -/
theorem Refined.exists_enumerates {imports : List (String × Draft)} {raw d : Draft}
    (h : Refined imports raw d) {v : Visit} (hv : v ∈ d.walk)
    (he : .enumeration e ∈ Model.declarationsOf v.site.ns.scope) :
    ∃ e', raw.wrap.Enumerates (QualifiedName.join (some v.site.qualified) e.name) e' ∧
      e = { e' with parent := e.parent } := by
  have he : e ∈ v.site.ns.scope.enums ++ v.site.ns.scope.options := by
    rcases mem_declarationsOf.1 he with ⟨_, -, heq⟩ | ⟨e', he', heq⟩ | ⟨e', he', heq⟩ | ⟨_, -, heq⟩
    · cases heq
    · cases heq
      exact mem_append_left _ he'
    · cases heq
      exact mem_append_right _ he'
    · cases heq
  obtain ⟨u, hu, hroute, s, hs, hns⟩ := h.before hv
  obtain ⟨-, hqualified⟩ := Visit.site_of_route hroute
  rw [hns] at he
  obtain ⟨e₁, he₁, heq₁⟩ := Scope.enumerates_of_mapNames (Scope.enumerates_of_promote hs he)
  obtain ⟨w, hw, hroute', hscope⟩ := exists_visit_of_useColons hu
  rw [hscope] at he₁
  obtain ⟨e₂, he₂, heq₂⟩ := Scope.enumerates_of_mapNames he₁
  refine ⟨e₂, ⟨w, hw, he₂, ?_⟩, ?_⟩
  · rw [(Visit.site_of_route hroute').2, hqualified, heq₁, heq₂]
  · rw [heq₁, heq₂]

end Draft

/-! ## Lineages -/

/-- The ancestors of an enumeration, the first one without a parent: all of them
    enumerations of the models that a file reaches, and none a set of flags. -/
inductive Library.Lineage (lib : Library) (f : String) :
    List Model.Enumeration → Model.Enumeration → Prop
  | root {m e} : m ∈ lib.reachable f → .enumeration e ∈ m.entities → e.kind ≠ .flags →
    e.parent = none → Lineage lib f [] e
  | child {above parent m e ref} : Lineage lib f above parent → m ∈ lib.reachable f →
      .enumeration e ∈ m.entities → e.kind ≠ .flags → e.parent = some ref →
      lib.resolve? f ref = some (.enumeration parent) → Lineage lib f (above ++ [parent]) e

/-- An enumeration as it is written in a file. -/
structure Listing where
  file : String
  /-- what was read, with the numbers that its values were first given -/
  first : Enumeration
  /-- its values before they were numbered -/
  raws : List RawValue

/-- What is written for an enumeration of the models that a file reaches, in the text of
    the file that it belongs to. -/
structure Library.Lists (lib : Library) (source : String → Option String) (f : String)
    (e : Model.Enumeration) (l : Listing) : Prop where
  owner : ∃ m ∈ lib.reachable f, .enumeration e ∈ m.entities ∧ m.file = l.file
  written : ∃ raw, readFrom source l.file = some raw ∧ raw.wrap.Enumerates e.qualified l.first
  kind : l.first.kind = e.kind
  numbered : ∃ home, number l.first.kind l.file home l.raws = .ok l.first.values

/-- Values are those of some listings, one after the other: they have the names and the
    numbers that all that is written gets as one list, and stand where it is written. -/
structure Counts (ls : List Listing) (values : List Model.EnumValue) : Prop where
  numbers : ∀ file home, ∃ all, number .closed file home (ls.flatMap (·.raws)) = .ok all ∧
    values.map (fun v => (v.name, v.number)) = all.map fun v => (v.name, v.number)
  places : values.map (fun v => (v.origin.file, v.origin.line)) =
    ls.flatMap fun l => l.raws.map fun raw => (l.file, raw.line)

namespace Counts

theorem nil : Counts [] [] := ⟨fun _ _ => ⟨[], rfl, rfl⟩, rfl⟩

theorem concat {ls : List Listing} {inherited : List Model.EnumValue} (h : Counts ls inherited)
    {l : Listing} {home : String} {below : List EnumValue}
    (hbelow : numberFrom .closed l.file home (inherited.getLast?.map (·.number)) l.raws =
      .ok below) :
    Counts (ls ++ [l])
      (inherited.map Model.EnumValue.handedDown ++ below.map EnumValue.asOwn) := by
  constructor
  · intro file' home'
    obtain ⟨all, hall, hnumbers⟩ := h.numbers file' home'
    obtain ⟨below', hbelow', hnumbers'⟩ := numberFrom_elsewhere hbelow file' home'
    have hlast : (all.getLast?.map (·.number)).or none = inherited.getLast?.map (·.number) := by
      have hmap := congrArg (fun xs => xs.getLast?.map Prod.snd) hnumbers
      simp only [getLast?_map, Option.map_map, Function.comp_def] at hmap
      rw [Option.or_none, hmap]
    rw [← hlast] at hbelow'
    refine ⟨all ++ below', ?_, ?_⟩
    · rw [flatMap_append, flatMap_singleton]
      exact numberFrom_append hall hbelow'
    · rw [map_append, map_append, map_map, map_map, hnumbers', ← hnumbers]
      rfl
  · have hplaces :=
      congrArg (List.map fun o : Origin => (o.file, o.line)) (origin_numberFrom hbelow)
    rw [map_map, map_map] at hplaces
    rw [map_append, map_map, map_map, flatMap_append, flatMap_singleton, ← h.places]
    exact congrArg _ hplaces

theorem inherited {ls : List Listing} {inherited : List Model.EnumValue} (h : Counts ls inherited)
    {l : Listing} {home : String} {previous : Option Int} {below : List EnumValue}
    (hbelow : numberFrom .closed l.file home previous l.raws = .ok below) :
    (inherited.map Model.EnumValue.handedDown ++ below.map EnumValue.asOwn).map (·.inherited) =
      (ls.flatMap (·.raws)).map (fun _ => true) ++ l.raws.map fun _ => false := by
  have hinherited := congrArg (List.map fun _ => true) h.places
  have hown := congrArg (List.map fun _ => false) (origin_numberFrom hbelow)
  simp only [map_flatMap, map_map, Function.comp_def] at hinherited hown
  rw [map_append, map_map, map_map, map_flatMap, ← hinherited, ← hown]
  rfl

end Counts

namespace System

variable {ext : String} {source : String → Option String} {final : String → Option Draft}
  {lib : Library} (h : System ext source final lib) {f : String} {m : Model}
  (hm : m ∈ lib.reachable f) {e : Model.Enumeration} (he : .enumeration e ∈ m.entities)
  {root : Model}
include h hm he

/-- **What is written for an enumeration is put behind what it inherits**, counting on from
    the last inherited number. -/
theorem exists_listing (hkind : e.kind ≠ .flags) : ∃ d, Model.Models lib d m ∧
    m.own? e.qualified = some (.enumeration e) ∧ ∃ l home inherited below, lib.Lists source f e l ∧
      (Model.binderOf lib d m.imports).Hands (Model.enumsOf lib d m.imports) e.parent inherited ∧
      number l.first.kind l.file home l.raws = .ok l.first.values ∧
      numberFrom .closed l.file home (inherited.getLast?.map (·.number)) l.raws = .ok below ∧
      e.values = inherited.map Model.EnumValue.handedDown ++ below.map EnumValue.asOwn := by
  obtain ⟨-, hfind⟩ := h.mem_reachable hm
  obtain ⟨raw, d, -, hset, hmodels, -⟩ := h.settles hfind
  obtain ⟨text, -, hread⟩ := readFrom_eq_some_iff.1 hset.read
  have hown : m.own? e.qualified = some (.enumeration e) := by
    rw [Model.entities_eq hmodels.nodup_entities] at he
    exact hmodels.own?_iff.2 ⟨he, rfl⟩
  obtain ⟨x, inherited, hx, hxkind, hhands, hvalues⟩ := hmodels.exists_inherited hown
  obtain ⟨v, hv, hmem, hjoin⟩ :=
    (Model.find?_declared_iff hmodels.finished hmodels.faultless.index).1 hx
  obtain ⟨y, ⟨w, hw, hy, hwjoin⟩, hxy⟩ := hset.refined.exists_enumerates hv hmem
  obtain ⟨-, raws, hraws⟩ :=
    (writtenIn_wrap hread _ (mem_of_getElem? (getElem?_site_of_mem_walk hw))).2.numberedIn hy
  have hykind : y.kind = x.kind := by rw [hxy]
  have hyvalues : y.values = x.values := by rw [hxy]
  rw [← hykind, ← hyvalues] at hvalues
  obtain ⟨below, hbelow, heq⟩ := Model.mergeValues_eq (hykind.trans hxkind ▸ hkind) hraws hvalues
  refine ⟨d, hmodels, hown, ⟨m.file, y, raws⟩, _, inherited, below, ?_, hhands, hraws, hbelow, heq⟩
  exact ⟨⟨m, hm, he, rfl⟩, ⟨raw, hset.read, w, hw, hy, hwjoin.trans hjoin⟩,
    hykind.trans hxkind, _, hraws⟩

omit he in
/-- **An enumeration inherits the values of what its parent refers to.** -/
theorem eq_of_hands (hroot : lib.find? f = some root) {d : Draft} (hd : Model.Models lib d m)
    (hown : m.own? e.qualified = some (.enumeration e)) {ref : TypeRef} (href : e.parent = some ref)
    {parent : Model.Enumeration} (hparent : lib.resolve? f ref = some (.enumeration parent))
    {inherited : List Model.EnumValue}
    (hhands : (Model.binderOf lib d m.imports).Hands (Model.enumsOf lib d m.imports)
      (some ref) inherited) :
    inherited = parent.values := by
  obtain ⟨-, hcases⟩ := h.parent_cases hroot hm hd hown href hparent
  rcases hcases with ⟨hp, -⟩ | ⟨hnone, himported, -⟩
  · obtain ⟨-, -, -, z, -, -, hz, hbecomes⟩ := hd.becomes_of_own? hp
    cases hbecomes with
    | enumeration hresult =>
      cases hhands with
      | own _ hfind => rw [Option.some.inj (hfind.symm.trans hresult)]
      | imported hnot => cases hnot.symm.trans (Model.Binder.enumeration?_eq_some_iff.2 hz)
  · cases hhands with
    | own hdeclared _ =>
      obtain ⟨x, hx⟩ := (Table.contains_iff _ _).1 hdeclared
      cases hnone.symm.trans hx
    | imported _ =>
      rw [Model.Binder.importedValues, himported]
      rfl

omit hm he in
/-- **Along a lineage, values are those of all listings in order.** -/
theorem counts (hroot : lib.find? f = some root) {above : List Model.Enumeration}
    (hlineage : lib.Lineage f above e) :
    ∃ ls l, Forall₂ (lib.Lists source f) above ls ∧
      lib.Lists source f e l ∧ Counts (ls ++ [l]) e.values ∧
      e.values.map (·.inherited) = (ls.flatMap (·.raws)).map (fun _ => true) ++ l.raws.map
        (fun _ => false) ∧
      (e.parent = none → e.values = l.first.values.map EnumValue.asOwn) := by
  induction hlineage with
  | @root m e hm he hkind hparent =>
    obtain ⟨d, -, -, l, home, inherited, below, hl, hhands, hnumber, hbelow, hvalues⟩ :=
      h.exists_listing hm he hkind
    rw [hparent] at hhands
    cases hhands
    refine ⟨[], l, .nil, hl, ?_⟩
    rw [hvalues]
    refine ⟨Counts.nil.concat hbelow, Counts.nil.inherited hbelow, fun _ => ?_⟩
    -- both numberings are the same function of what is written
    have hfirst : numberFrom .closed l.file home none l.raws = .ok l.first.values := by
      rw [← hnumber, number, hl.kind]
      exact (numberFrom_eq_closed hkind).symm
    rw [Except.ok.inj (hbelow.symm.trans hfirst)]
    rfl
  | @child above parent m e ref _ hm he hkind href hresolve ih =>
    obtain ⟨ls, p, hls, hp, hcounts, -⟩ := ih
    obtain ⟨d, hd, hown, l, home, inherited, below, hl, hhands, -, hbelow, hvalues⟩ :=
      h.exists_listing hm he hkind
    rw [href] at hhands
    obtain rfl := h.eq_of_hands hm hroot hd hown href hresolve hhands
    refine ⟨ls ++ [p], l, rel_append hls (.cons hp .nil), hl, ?_⟩
    rw [hvalues]
    refine ⟨hcounts.concat hbelow, hcounts.inherited hbelow, fun hnone => ?_⟩
    rw [href] at hnone
    cases hnone

omit hm he in
theorem exists_parent_of_enumeration (hroot : lib.find? f = some root) (hm : m ∈ lib.reachable f)
    (he : .enumeration e ∈ m.entities) {ref : TypeRef} (href : e.parent = some ref) :
    ∃ m' ∈ lib.reachable f, ∃ parent, .enumeration parent ∈ m'.entities ∧ parent.kind ≠ .flags ∧
      lib.resolve? f ref = some (.enumeration parent) := by
  obtain ⟨hrefkind, m', hm', p, hp, hpkind, -, hresolve⟩ := h.exists_parent_of_mem hroot hm he href
  obtain ⟨parent, rfl, hparentkind⟩ := Model.Entity.eq_enumeration (hpkind.trans hrefkind)
  exact ⟨m', h.mem_reachable_trans hroot hm hm', parent, hp, hparentkind, hresolve⟩

omit hm he in
/-- **Every enumeration has a lineage.** -/
theorem exists_lineage (hroot : lib.find? f = some root) (hm : m ∈ lib.reachable f)
    (he : .enumeration e ∈ m.entities) (hkind : e.kind ≠ .flags) :
    ∃ above, lib.Lineage f above e := by
  generalize hentity : Model.Entity.enumeration e = entity at he
  induction entity using (h.wellFounded_isParent hroot).induction generalizing m e with
  | h entity ih =>
    subst hentity
    cases href : e.parent with
    | none => exact ⟨[], .root hm he hkind href⟩
    | some ref =>
      obtain ⟨m', hm', parent, hmem, hparentkind, hresolve⟩ :=
        h.exists_parent_of_enumeration hroot hm he href
      obtain ⟨above, habove⟩ := ih _ ⟨m, hm, he, ref, href, hresolve⟩ hm' hparentkind rfl hmem
      exact ⟨above ++ [parent], .child habove hm he hkind href hresolve⟩

end System

namespace Compilation

/-- **Inheriting values is writing them down again.**  Along every lineage of a compilation
    the values of an enumeration have the names and the numbers that all that is written
    for its ancestors and then for itself gets as one list; those of the ancestors are
    inherited, and each stands in the file and line that it is written in.  Every
    enumeration that is no set of flags has a lineage, and one without a parent keeps the
    numbers that it was first given. -/
theorem counts_of_lineage {fs : FileSystem} {ext path : String} {source : String → Option String}
    {lib : Library} (h : Compiles fs ext path source lib) {f : String}
    (hf : f ∈ lib.reachableFiles (Path.absolute path)) :
    (∀ m ∈ lib.reachable f, ∀ e, .enumeration e ∈ m.entities → e.kind ≠ .flags →
      ∃ above, lib.Lineage f above e) ∧
    ∀ above e, lib.Lineage f above e → ∃ ls l, Forall₂ (lib.Lists source f) above ls ∧
      lib.Lists source f e l ∧ Counts (ls ++ [l]) e.values ∧
      e.values.map (·.inherited) = (ls.flatMap (·.raws)).map (fun _ => true) ++ l.raws.map
        (fun _ => false) ∧
      (e.parent = none → e.values = l.first.values.map Draft.EnumValue.asOwn) := by
  obtain ⟨final, hsys, -⟩ := h.system
  obtain ⟨root, hroot⟩ := (Table.contains_iff _ _).1 (Library.reaches_of_mem_reachableFiles hf).2
  exact ⟨fun m hm e he hkind => hsys.exists_lineage hroot hm he hkind,
    fun above e hlineage => hsys.counts hroot hlineage⟩

/-- An enumeration whose parent is declared after it, and whose grandparent is imported. -/
def spread : FileSystem where
  texts := Table.empty
    |>.insert "/b.def" "import \"a.def\" open_enum C : B \x7b t \x7d enum B : A \x7b r = 8 s \x7d"
    |>.insert "/a.def" "enum A \x7b p = -2 q \x7d"
  unreadable := []
  refusal := id

theorem enumeration?_elim {lib : Library} {f q : String} {e : Model.Enumeration}
    (h : lib.enumeration? f q = some e) :
    (∃ m ∈ lib.reachable f, .enumeration e ∈ m.entities) ∧
      (e.kind ≠ .flags → lib.resolve? f ⟨.enumeration, q⟩ = some (.enumeration e)) := by
  obtain ⟨x, hx, hxe⟩ := Option.bind_eq_some_iff.1 h
  cases x with
  | message | compound => cases hxe
  | enumeration =>
    cases hxe
    constructor
    · obtain ⟨m, hm, hown⟩ := exists_of_findSome?_eq_some hx
      exact ⟨m, hm, (Table.mem_values_iff _ _).2 ⟨q, hown⟩⟩
    · intro hkind
      rw [Library.resolve?, hx]
      exact Option.filter_eq_some_iff.2 ⟨rfl, by simp [Model.Entity.kind, hkind]⟩

theorem counts_of_lineage_spread : ∃ lib a b c ls l,
    Compiles spread ".def" "/b.def" spread.texts.find? lib ∧
    "/b.def" ∈ lib.reachableFiles (Path.absolute "/b.def") ∧ lib.Lineage "/b.def" [a, b] c ∧
    c.values = [⟨"p", -2, true, ⟨⟨"", ""⟩, "/a.def", 1, "a"⟩⟩,
      ⟨"q", -1, true, ⟨⟨"", ""⟩, "/a.def", 1, "a"⟩⟩,
      ⟨"r", 8, true, ⟨⟨"", ""⟩, "/b.def", 1, "b"⟩⟩, ⟨"s", 9, true, ⟨⟨"", ""⟩, "/b.def", 1, "b"⟩⟩,
      ⟨"t", 10, false, ⟨⟨"", ""⟩, "/b.def", 1, "b"⟩⟩] ∧
    Forall₂ (lib.Lists spread.texts.find? "/b.def") [a, b] ls ∧
    lib.Lists spread.texts.find? "/b.def" c l ∧ Counts (ls ++ [l]) c.values := by
  obtain ⟨lib, hlib, hfound⟩ := exists_of_map_toOption (x := (ofFile spread ".def" "/b.def").result)
    (p := fun lib => (["a::A", "b::B", "b::C"].map fun q =>
      (lib.enumeration? "/b.def" q).map fun e => (e.kind, e.parent),
      (lib.enumeration? "/b.def" "b::C").map (·.values)))
    (b := ([some (.closed, none), some (.closed, some ⟨.enumeration, "a::A"⟩),
        some (.extensible, some ⟨.enumeration, "b::B"⟩)],
      some [⟨"p", -2, true, ⟨⟨"", ""⟩, "/a.def", 1, "a"⟩⟩,
      ⟨"q", -1, true, ⟨⟨"", ""⟩, "/a.def", 1, "a"⟩⟩,
        ⟨"r", 8, true, ⟨⟨"", ""⟩, "/b.def", 1, "b"⟩⟩, ⟨"s", 9, true, ⟨⟨"", ""⟩, "/b.def", 1, "b"⟩⟩,
        ⟨"t", 10, false, ⟨⟨"", ""⟩, "/b.def", 1, "b"⟩⟩])) (by decide +kernel)
  simp only [Prod.mk.injEq, map_cons, map_nil, List.cons.injEq, Option.map_eq_some_iff, and_true]
    at hfound
  obtain ⟨⟨⟨a, ha, hakind, haparent⟩, ⟨b, hb, hbkind, hbparent⟩, c, hc, hckind, hcparent⟩, c',
      hc', hvalues⟩ :=
    hfound
  obtain rfl := Option.some.inj (hc.symm.trans hc')
  have hflags : a.kind ≠ .flags ∧ b.kind ≠ .flags ∧ c.kind ≠ .flags := by
    rw [hakind, hbkind, hckind]
    decide
  obtain ⟨⟨ma, hma, hamem⟩, haresolve⟩ := enumeration?_elim ha
  obtain ⟨⟨mb, hmb, hbmem⟩, hbresolve⟩ := enumeration?_elim hb
  obtain ⟨⟨mc, hmc, hcmem⟩, -⟩ := enumeration?_elim hc
  have hlineage : lib.Lineage "/b.def" [a, b] c :=
    .child (.child (.root hma hamem hflags.1 haparent) hmb hbmem hflags.2.1 hbparent
      (haresolve hflags.1)) hmc hcmem hflags.2.2 hcparent (hbresolve hflags.2.1)
  obtain ⟨final, hsys, hroot⟩ := (Compiles.ofFile hlib).system
  have hmem : "/b.def" ∈ lib.reachableFiles (Path.absolute "/b.def") := by
    have habsolute : Path.absolute "/b.def" = "/b.def" := by decide +kernel
    have hself := (Library.mem_reachableFiles_iff hsys.closed hroot).2 .refl
    rw [habsolute] at hself ⊢
    exact hself
  obtain ⟨ls, l, hls, hl, hcounts, -⟩ := (counts_of_lineage (.ofFile hlib) hmem).2 _ _ hlineage
  exact ⟨lib, a, b, c, ls, l, .ofFile hlib, hmem, hlineage, hvalues, hls, hl, hcounts⟩

end Compilation

end MessageSchema
