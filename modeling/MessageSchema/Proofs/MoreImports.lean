/-
  Files with one more import.

  An import that is added after all others is looked at after all others: when names
  are looked up, and when they are bound.  In a file that compiles every name denotes
  something and is bound already, so a further import changes neither.
-/
import MessageSchema.Proofs.Appending
import MessageSchema.Proofs.Carrying

namespace MessageSchema

open List QualifiedName Draft Table

/-! ## Systems with the same texts -/

theorem Draft.Refines.unique {imports : List (String × Draft)} {raw d d' : Draft}
    (h : Draft.Refines imports raw d) (h' : Refines imports raw d') : d = d' := by
  obtain ⟨e, he, hd⟩ := h
  obtain ⟨e', he', hd'⟩ := h'
  cases he.symm.trans he'
  exact (Prod.mk.inj (hd.symm.trans hd')).1

/-- **Two systems agree on a file and all that it leads to**, if these have the same texts. -/
theorem System.same_of_reaches {ext : String} {source source' : String → Option String}
    {final final' : String → Option Draft} {lib lib' : Library} (h : System ext source final lib)
    (h' : System ext source' final' lib') {f : String} (hf : lib.contains f = true)
    (hf' : lib'.contains f = true) (hsource : ∀ k, lib.Reaches f k → source' k = source k) :
    ∀ k, lib.Reaches f k → final' k = final k ∧ lib'.find? k = lib.find? k := by
  obtain ⟨rank, hrank⟩ := h.ranked
  induction hn : rank f using Nat.strong_induction_on generalizing f with
  | _ n ih =>
    obtain ⟨m, hm⟩ := (contains_iff _ _).1 hf
    obtain ⟨m', hm'⟩ := (contains_iff _ _).1 hf'
    obtain ⟨d, hd, hbuilt⟩ := h.built hm
    obtain ⟨d', hd', hbuilt'⟩ := h'.built hm'
    obtain ⟨raw, hset⟩ := h.settled hd
    obtain ⟨raw', hset'⟩ := h'.settled hd'
    obtain rfl : raw' = raw := by
      have hread := hset'.read
      rw [readFrom, hsource f .refl] at hread
      exact Option.some.inj (hread.symm.trans hset.read)
    have hbelow : ∀ g ∈ (d.links ext).values, ∀ k, lib.Reaches g k →
        final' k = final k ∧ lib'.find? k = lib.find? k := fun g hg => by
      have hrankg := hrank hd g hg
      rw [hset.links_eq] at hg
      obtain ⟨i, hi, rfl⟩ := exists_import_of_mem_links hg
      rw [hset.file_raw] at hrankg ⊢
      have himports := h.imports_target hm hset.read hi
      exact ih _ (hn ▸ hrankg) (h.closed f _ himports)
        (h'.closed f _ (h'.imports_target hm' hset'.read hi))
        (fun k hk => hsource k (hk.head himports)) rfl
    have hlinked : raw'.linked ext final' = raw'.linked ext final := by
      refine linked_congr fun i hi => (hbelow _ ?_ _ .refl).1
      rw [hset.links_eq]
      exact mem_links hset.keys hi
    obtain rfl : d' = d := by
      have hrefines := hset'.refines
      rw [hlinked] at hrefines
      exact hrefines.unique hset.refines
    obtain rfl : m' = m := by
      rw [Model.ofDraft_congr d' fun g hg k hk => (hbelow g hg k hk).2.symm] at hbuilt
      exact (Prod.mk.inj (hbuilt'.symm.trans hbuilt)).1
    intro k hk
    rcases Relation.ReflTransGen.cases_head hk with rfl | ⟨g, ⟨m₀, hm₀, hg⟩, hk⟩
    · exact ⟨hd'.trans hd.symm, hm'.trans hm.symm⟩
    · cases hm.symm.trans hm₀
      rw [(Model.ofDraft_eq hbuilt).1] at hg
      exact hbelow g hg k hk

namespace Draft

/-! ## Lookups that can find more -/

/-- One file sees what another one sees, and maybe further imports after all others. -/
structure Surroundings.Within (s s' : Surroundings) : Prop where
  own : s'.own = s.own
  named : s'.named = s.named
  plain : s.plain <+: s'.plain

namespace Surroundings.Within

variable {s s' : Surroundings} (h : s.Within s') {enclosing : List Region}
include h

/-- **What is found is found again.** -/
theorem lookup {name q : String} (hq : s.lookup enclosing name = some q) :
    s'.lookup enclosing name = some q := by
  obtain ⟨more, hmore⟩ := h.plain
  rw [Surroundings.lookup] at hq ⊢
  split at hq
  · next hqualified =>
    rw [if_pos hqualified]
    simp only [lookupQualified, h.own, h.named, ← hmore, findSome?_append] at hq ⊢
    generalize Option.bind _ _ = viaLocalName, find? _ (_ ++ [name]) = own,
      s.plain.findSome? _ = plain at hq ⊢
    cases viaLocalName <;> cases own <;> cases plain <;> first | exact hq | cases hq
  · next hqualified =>
    rw [if_neg hqualified]
    simp only [lookupPlain, ← hmore, findSome?_append] at hq ⊢
    generalize enclosing.findSome? _ = own, s.plain.findSome? _ = plain at hq ⊢
    cases own <;> cases plain <;> first | exact hq | cases hq

theorem resolve_eq {n : TypeName} (hn : (s.resolve enclosing n).resolved = true) :
    s'.resolve enclosing n = s.resolve enclosing n := by
  unfold resolve at hn ⊢
  split at hn
  · next hmark => rw [if_pos hmark, if_pos hmark]
  · next hmark =>
    rw [if_neg hmark, if_neg hmark]
    cases hlookup : s.lookup enclosing n.text with
    | some q => simp only [h.lookup hlookup]
    | none =>
      rw [hlookup] at hn
      exact absurd hn hmark

end Surroundings.Within

/-! ## One more import -/

def withImport (i : Import) (d : Draft) : Draft := { d with imports := d.imports ++ [i] }

theorem wrap_withImport (i : Import) (d : Draft) : (d.withImport i).wrap = d.wrap.withImport i := by
  unfold wrap
  rw [show (d.withImport i).isWrapped = d.isWrapped from rfl]
  split <;> rfl

theorem useColons_withImport (i : Import) (d : Draft) :
    (d.withImport i).useColons = d.useColons.withImport i := rfl

theorem links_withImport (ext : String) (i : Import) (d : Draft) :
    (d.withImport i).links ext = (d.links ext).insert i.key (Path.ofImport ext d.file i.path) := by
  rw [links, links, withImport, foldl_append]
  rfl

section
variable (ext : String) {d : Draft} {i : Import} (hkeys : KeysApart (d.imports ++ [i]))
include hkeys

/-- **The import is the last link**, or there is a link like it already. -/
theorem entries_links_withImport :
    ∃ more, ((d.withImport i).links ext).entries = (d.links ext).entries ++ more ∧
    ∀ e ∈ more, e.1 = i.key ∧ (d.links ext).find? e.1 = none := by
  rw [links_withImport]
  cases hfind : (d.links ext).find? i.key with
  | none => exact ⟨[_], entries_insert_of_find?_eq_none hfind _, by simpa using hfind⟩
  | some g =>
    obtain ⟨j, hj, hkey, rfl⟩ := exists_import_of_find?_links hfind
    have hpath :=
      KeysApart.path_eq hkeys (mem_append_left _ hj) (mem_append_right _ mem_cons_self) hkey
    rw [hpath] at hfind
    rw [insert_of_find? hfind]
    exact ⟨[], (append_nil _).symm, by simp⟩

theorem within_surroundings (hlocal : i.localName = none) (final : String → Option Draft)
    {e : Draft} (he : e.imports = d.imports) :
    (e.surroundings (d.linked ext final)).Within
      ((e.withImport i).surroundings ((d.withImport i).linked ext final)) := by
  have hlinks := entries_links_withImport (d := d) (i := i) ext hkeys
  obtain ⟨more, hentries, hmore⟩ := hlinks
  have hany : ∀ k, (e.withImport i).imports.any (·.localName = some k) =
      e.imports.any (·.localName = some k) := by
    intro k
    rw [withImport, any_append]
    simp [hlocal]
  have hlinked : (d.withImport i).linked ext final =
      d.linked ext final ++ more.filterMap fun e => (final e.2).map fun x => (e.1, x) := by
    rw [linked, linked, hentries, filterMap_append]
  have hplain : ∀ x ∈ more.filterMap (fun e => (final e.2).map fun x => (e.1, x)),
      e.imports.any (·.localName = some x.1) = false := by
    intro x hx
    obtain ⟨⟨k, g⟩, hmem, hx⟩ := mem_filterMap.1 hx
    obtain ⟨y, -, rfl⟩ := Option.map_eq_some_iff.1 hx
    obtain ⟨rfl, hnone⟩ := hmore _ hmem
    rw [any_eq_false]
    intro j hj hname
    -- an import with that local name would have a link
    have hkey : j.key = i.key := by rw [Import.key, of_decide_eq_true hname, Option.getD_some]
    rw [he] at hj
    have hfind : (d.links ext).find? j.key = _ := find?_links (pairwise_append.1 hkeys).1 hj
    rw [hkey, hnone] at hfind
    cases hfind
  refine ⟨rfl, ?_, ?_⟩
  · have hnone : (more.filterMap fun e => (final e.2).map fun x => (e.1, x)).filter
        (fun x => e.imports.any (·.localName = some x.1)) = [] :=
      filter_eq_nil_iff.2 fun x hx => by simp [hplain x hx]
    simp [surroundings, hany, hlinked, hnone]
  · simp only [surroundings, hany, hlinked, filter_append, map_append]
    exact prefix_append _ _

end

/-! ## Names of a model -/

section
variable {P : TypeName → TypeRef → Prop} {Q : TypeRef → Prop} {n : TypeName}

theorem FieldType.Bound.exists_of_mem_names {t : FieldType} {T : MessageSchema.FieldType}
    (h : t.Bound P Q T) (hn : n ∈ t.names) : ∃ ref, P n ref := by
  have hscalar : ∀ {s : ScalarType} {T}, s.Bound P T → n ∈ s.names → ∃ ref, P n ref := by
    intro s T hs hn
    cases hs with
    | primitive => cases hn
    | entity hputs | compound hputs =>
      obtain rfl := mem_singleton.1 hn
      exact ⟨_, hputs⟩
  have helement : ∀ {e : ElementType} {T}, e.Bound P Q T → n ∈ e.names → ∃ ref, P n ref := by
    intro e T he hn
    cases he with
    | scalar hs => exact hscalar hs hn
    | inline | compound => cases hn
  induction h with
  | element he | array he => exact helement he hn
  | map hk _ ih => exact (mem_append.1 hn).elim (hscalar hk) ih

theorem Scope.Bound.exists_of_mem_names {s : Scope} {ns : Model.Namespace} (h : s.Bound P Q ns)
    (hn : n ∈ s.names) : ∃ ref, P n ref := by
  have hparents : ∀ {kind : EntityKind} {o : Option TypeName} {result : Option TypeRef},
      Option.Rel (fun n ref => P n ref ∧ ref.kind = kind) o result → n ∈ o.toList →
      ∃ ref, P n ref := by
    intro kind o result hrel hn
    obtain ⟨rfl, -⟩ | ⟨n', ref, rfl, -, hputs, -⟩ := rel_cases hrel
    · cases hn
    · obtain rfl := mem_singleton.1 hn
      exact ⟨ref, hputs⟩
  rcases mem_append.1 hn with hn | hn
  · obtain ⟨m, hm, hn⟩ := mem_flatMap.1 hn
    obtain ⟨M, -, hM⟩ := exists_right_of_mem h.messages hm
    rcases mem_append.1 hn with hn | hn
    · exact hparents hM.parent hn
    · obtain ⟨f, hf, hn⟩ := mem_flatMap.1 hn
      obtain ⟨F, -, hF⟩ := exists_right_of_mem hM.fields hf
      exact hF.2.exists_of_mem_names hn
  · obtain ⟨e, he, hn⟩ := mem_flatMap.1 hn
    obtain ⟨E, -, hE⟩ := exists_right_of_mem h.enums he
    exact hparents hE.parent hn

end

theorem FieldType.mem_names_replaceInline_of_mem {t : FieldType} {k n : TypeName}
    (h : n ∈ t.names) : n ∈ (t.replaceInline k).names := by
  induction t with
  | element e | array e =>
    cases e with
    | inline => cases h
    | scalar | compound => exact h
  | map key value ih => exact mem_append.2 ((mem_append.1 h).imp id ih)

theorem Scope.mem_names_promote_of_mem {home : Option String} {s s' : Scope}
    (h : s.promote home = (s', none)) {n : TypeName} (hn : n ∈ s.names) : n ∈ s'.names := by
  obtain ⟨new, -, rfl⟩ := promote_eq h
  rcases mem_append.1 hn with hn | hn
  · obtain ⟨m, hm, hn⟩ := mem_flatMap.1 hn
    refine mem_append_left _ (mem_flatMap.2 ⟨_, mem_map_of_mem hm, ?_⟩)
    refine mem_append.2 ((mem_append.1 hn).imp id fun hn => ?_)
    obtain ⟨f, hf, hn⟩ := mem_flatMap.1 hn
    exact mem_flatMap.2 ⟨_, mem_map_of_mem hf, FieldType.mem_names_replaceInline_of_mem hn⟩
  · obtain ⟨e, he, hn⟩ := mem_flatMap.1 hn
    exact mem_append_right _ (mem_flatMap.2 ⟨e, mem_append_left _ he, hn⟩)

/-- **Drafts with the same namespaces are refined to the same namespaces**, if lookups do
    the same to their names. -/
theorem Refined.arena_eq {imports imports' : List (String × Draft)} {raw raw' d d' : Draft}
    (hraw : raw.AsRead) (h : Refined imports raw d) (h' : Refined imports' raw' d')
    (hwalk : raw'.wrap.useColons.walk = raw.wrap.useColons.walk)
    (harena : raw'.wrap.useColons.arena = raw.wrap.useColons.arena)
    (hresolved : ∀ v ∈ raw.wrap.useColons.walk,
      v.resolved (raw'.wrap.useColons.surroundings imports') =
      v.resolved (raw.wrap.useColons.surroundings imports)) :
    d'.arena = d.arena := by
  have hlength : d'.arena.length = d.arena.length := by
    have houtline : Draft.outline d'.arena = Draft.outline d.arena := by
      rw [h.outline, h'.outline, harena]
    simpa only [Draft.outline, length_map] using congrArg List.length houtline
  refine ext_getElem? fun i => ?_
  cases hi : d.arena[i]? with
  | none =>
    rw [List.getElem?_eq_none_iff] at hi ⊢
    rwa [hlength]
  | some ns =>
    obtain ⟨v, hv, rfl, -⟩ := (h.covered hraw).exists_visit hi
    obtain ⟨u, hu, hroute, -⟩ := h.before hv
    obtain ⟨hindex, -⟩ := Visit.site_of_route hroute
    obtain ⟨s, hs, hget⟩ := h.visited u hu
    obtain ⟨s', hs', hget'⟩ := h'.visited u (hwalk ▸ hu)
    rw [hresolved u hu, hs] at hs'
    obtain rfl := (Prod.mk.inj hs').1
    rw [← hi, ← hindex, hget, hget']

end Draft

/-! ## Models with more imports -/

namespace Model

open Binder (Carries)

variable {lib lib' : Library} {imports imports' : Table String}

theorem prefix_importedModels {more : List (String × String)}
    (hentries : imports'.entries = imports.entries ++ more)
    (h : ∀ g ∈ imports.values, lib.AgreesFrom lib' g) :
    Binder.importedModels lib imports <+: Binder.importedModels lib' imports' := by
  have hvalues : imports'.values = imports.values ++ more.map (·.2) := by
    rw [values, values, hentries, map_append]
  rw [importedModels_congr h, Binder.importedModels, Binder.importedModels, hvalues]
  simp only [flatMap_append, eraseDups_append, filterMap_append]
  exact prefix_append _ _

theorem namespaceOf_eq {d d' : Draft} (hf : Faultless lib d imports)
    (hf' : Faultless lib' d' imports')
    (hcarries : (binderOf lib d imports).Carries id (binderOf lib' d' imports')) (hd : d.Finished)
    (hindex : Index.ofDraft d' = Index.ofDraft d) {v : Visit} (hv : v ∈ d.walk) :
    namespaceOf d.arena (entitiesOf lib' d' imports') v.site.index v.site.ns =
      namespaceAt lib d imports v := by
  have hbecomes : ∀ x ∈ declarationsOf v.site.ns.scope, ∃ e,
      Becomes (entitiesOf lib d imports) (join (some v.site.qualified) x.name) x e ∧
        Becomes (entitiesOf lib' d' imports') (join (some v.site.qualified) x.name) x e := by
    intro x hx
    have hfind := find?_declared hf hd hv hx
    have hfind' : (Index.ofDraft d').declared.find? _ = some x := hindex ▸ hfind
    obtain ⟨e, he⟩ := exists_becomes hf hfind
    obtain ⟨e', he'⟩ := exists_becomes hf' hfind'
    have heq := he.relabel_eq hcarries hf hf' hfind hfind' rfl he'
    rw [Entity.relabel_id, Entity.relabel_id] at heq
    exact ⟨e, he, heq ▸ he'⟩
  have hpick : ∀ {α β : Type} {xs : List β} {name : β → String} {t t' : Table α},
      (∀ x ∈ xs, t'.find? (join (some v.site.qualified) (name x)) =
        t.find? (join (some v.site.qualified) (name x))) →
      pick v.site.qualified t' (xs.map name) = pick v.site.qualified t (xs.map name) := by
    intro α β xs name t t' h
    rw [pick, pick, filterMap_map, filterMap_map]
    exact filterMap_congr h
  rw [namespaceAt, namespaceOf, namespaceOf, nameOf_eq hd hv]
  congr 1
  · refine hpick fun m hm => ?_
    obtain ⟨e, he, he'⟩ := hbecomes (.message m) (mem_declarationsOf.2 (.inl ⟨m, hm, rfl⟩))
    cases he with
    | message hr =>
      cases he' with
      | message hr' => exact hr'.trans hr.symm
  · refine hpick fun c hc => ?_
    obtain ⟨e, he, he'⟩ :=
      hbecomes (.enumeration c) (mem_declarationsOf.2 (.inr (.inl ⟨c, hc, rfl⟩)))
    cases he with
    | enumeration hr =>
      cases he' with
      | enumeration hr' => exact hr'.trans hr.symm
  · refine hpick fun c hc => ?_
    obtain ⟨e, he, he'⟩ := hbecomes (.enumeration c)
      (mem_declarationsOf.2 (.inr (.inr (.inl ⟨c, hc, rfl⟩))))
    cases he with
    | enumeration hr =>
      cases he' with
      | enumeration hr' => exact hr'.trans hr.symm
  · refine hpick fun c hc => ?_
    obtain ⟨e, he, he'⟩ := hbecomes (.compound c)
      (mem_declarationsOf.2 (.inr (.inr (.inr ⟨c, hc, rfl⟩))))
    cases he with
    | compound hr =>
      cases he' with
      | compound hr' => exact hr'.trans hr.symm

namespace Models

variable {lib : Library} {d : Draft} {m : Model} (h : Models lib d m)
include h

/-- **Every name of a model was found when it was looked up.** -/
theorem resolved_of_mem_names {imports : List (String × Draft)} {raw : Draft}
    (hrefined : Refined imports raw d) {u : Visit} (hu : u ∈ raw.wrap.useColons.walk) {n : TypeName}
    (hn : n ∈ u.site.ns.scope.names) :
    ((raw.wrap.useColons.surroundings imports).resolve (u.enclosing.map Site.region) n).resolved =
      true := by
  obtain ⟨v, hv, -, -, s, hs, hns⟩ := hrefined.after hu
  have hmem : (raw.wrap.useColons.surroundings imports).resolve (u.enclosing.map Site.region) n ∈
      v.site.ns.scope.names := by
    rw [hns]
    refine Scope.mem_names_promote_of_mem hs ?_
    rw [Visit.resolved, Scope.names_mapNames]
    exact mem_map_of_mem hn
  obtain ⟨ref, hputs⟩ := (h.bound (Q := fun _ => True) hv).exists_of_mem_names hmem
  exact hputs.cases.1

theorem namespaces_eq_of_carries {lib' : Library} {d' : Draft} {m' : Model} (h' : Models lib' d' m')
    (hcarries : (binderOf lib d m.imports).Carries id (binderOf lib' d' m'.imports))
    (harena : d'.arena = d.arena) (hindex : Index.ofDraft d' = Index.ofDraft d) :
    m'.namespaces = m.namespaces := by
  rw [h.namespaces_eq, h'.namespaces_eq, harena]
  refine ext_getElem? fun j => ?_
  rw [getElem?_mapIdx, getElem?_mapIdx]
  cases hj : d.arena[j]? with
  | none => rw [Option.map_none, Option.map_none]
  | some ns =>
    obtain ⟨v, hv, rfl, rfl⟩ := h.finished.covered.exists_visit hj
    exact congrArg some (namespaceOf_eq h.faultless h'.faultless hcarries h.finished hindex hv)

end Models

end Model

namespace System

variable {ext : String} {source source' : String → Option String}
  {final final' : String → Option Draft} {lib lib' : Library} (h : System ext source final lib)
  (h' : System ext source' final' lib')
include h h'

/-- **A file that gets one more import keeps its model**, the imports apart, if what it
    imported before stays. -/
theorem find?_withImport {f : String} {m m' : Model} (hm : lib.find? f = some m)
    (hm' : lib'.find? f = some m') {raw : Draft} {i : Import} (hlocal : i.localName = none)
    (hread : readFrom source f = some raw) (hread' : readFrom source' f = some (raw.withImport i))
    (hbelow : ∀ g ∈ m.imports.values, ∀ k, lib.Reaches g k → final' k = final k ∧
      lib'.find? k = lib.find? k) :
    m' = { m with imports := (raw.withImport i).links ext } ∧ m.imports = raw.links ext := by
  obtain ⟨raw₀, d, -, hset, hmodels, himports⟩ := h.settles hm
  cases hread.symm.trans hset.read
  obtain ⟨raw₁, d', -, hset', hmodels', himports'⟩ := h'.settles hm'
  cases hread'.symm.trans hset'.read
  rw [hset.links_eq] at himports
  rw [hset'.links_eq] at himports'
  have hkeys : KeysApart (raw.imports ++ [i]) := hset'.keys
  have hlinked : raw.linked ext final' = raw.linked ext final := by
    refine linked_congr fun j hj => (hbelow _ ?_ _ .refl).1
    rw [himports]
    exact mem_links hset.keys hj
  have hwithin := within_surroundings ext hkeys hlocal final'
    (show raw.wrap.useColons.imports = raw.imports from wrap_imports raw)
  rw [hlinked] at hwithin
  have hwrap : (raw.withImport i).wrap.useColons = raw.wrap.useColons.withImport i := by
    rw [wrap_withImport, useColons_withImport]
  have harena :=
      hset.refined.arena_eq hset.asRead hset'.refined (by rw [hwrap]; rfl) (by rw [hwrap]; rfl)
      fun u hu => by
      rw [hwrap]
      exact Scope.mapNames_congr fun n hn =>
        hwithin.resolve_eq (hmodels.resolved_of_mem_names hset.refined hu hn)
  obtain rfl : d' = d.withImport i := by
    have hrest := hset'.refined.rest
    rw [hwrap, harena] at hrest
    exact hrest.trans (congrArg (withImport i) hset.refined.rest).symm
  obtain ⟨more, hentries, -⟩ := entries_links_withImport ext hkeys
  rw [← himports, ← himports'] at hentries
  have hcarries : (Model.binderOf lib d m.imports).Carries id
      (Model.binderOf lib' (d.withImport i) m'.imports) := by
    refine ⟨fun q => rfl, fun {q e} he => ⟨e, ?_, rfl⟩⟩
    obtain ⟨ms, hms⟩ :=
      Model.prefix_importedModels hentries fun g hg k hk => (hbelow g hg k hk).2.symm
    have he : (Model.Binder.importedModels lib m.imports).findSome? (fun x => x.own? q) =
      some e := he
    show (Model.Binder.importedModels lib' m'.imports).findSome? (fun x => x.own? q) = some e
    rw [← hms, findSome?_append, he, Option.some_or]
  have hnamespaces : m'.namespaces = m.namespaces :=
    hmodels.namespaces_eq_of_carries hmodels' hcarries rfl rfl
  refine ⟨?_, himports⟩
  have hmodel := (Model.ofDraft_eq hmodels.built).1
  have hmodel' := (Model.ofDraft_eq hmodels'.built).1
  rw [← hmodels.namespaces_eq] at hmodel
  rw [← hmodels'.namespaces_eq, hnamespaces, himports'] at hmodel'
  rw [hmodel', hmodel]
  rfl

omit h' in
theorem ne_of_imports {f g k : String} (hg : lib.Imports f g) (hk : lib.Reaches g k) : k ≠ f := by
  obtain ⟨rank, hrank⟩ := h.ranked
  have hlt : ∀ {a b}, lib.Imports a b → rank b < rank a := by
    rintro a b ⟨m, hm, hb⟩
    obtain ⟨d, hd, hbuilt⟩ := h.built hm
    rw [(Model.ofDraft_eq hbuilt).1] at hb
    exact hrank hd b hb
  have hle : rank k ≤ rank g := by
    induction hk with
    | refl => exact Nat.le_refl _
    | tail _ himports ih => exact ((hlt himports).le).trans ih
  rintro rfl
  exact absurd (hlt hg) (Nat.not_lt.2 hle)

end System

namespace Compilation

/-- **An import that is added at the end of a file changes nothing in it**: if both texts
    compile, the models of the file differ in the import alone, and all files that the
    file led to before keep their models. -/
theorem models_importing {fs fs' : FileSystem} {ext path : String}
    {source source' : String → Option String} {lib lib' : Library}
    (h : Compiles fs ext path source lib) (h' : Compiles fs' ext path source' lib') {text : String}
    {lineEnd : List Char} (hend : IsLineEnd lineEnd) (p : Quotable)
    (htext : source (Path.absolute path) = some text)
    (htext' : source' (Path.absolute path) = some (importing text lineEnd p.chars))
    (hothers : ∀ f, f ≠ Path.absolute path → source' f = source f) :
    ∃ m m', lib.find? (Path.absolute path) = some m ∧ lib'.find? (Path.absolute path) = some m' ∧
      m' = { m with
        imports :=
  m.imports.insert (String.ofList p.chars)
          (Path.ofImport ext (Path.absolute path) (String.ofList p.chars)) } ∧
      ∀ f, lib.Reaches (Path.absolute path) f → f ≠ Path.absolute path →
      lib'.find? f = lib.find? f := by
  obtain ⟨final, hsys, hroot⟩ := h.system
  obtain ⟨final', hsys', hroot'⟩ := h'.system
  obtain ⟨m, hm⟩ := (contains_iff _ _).1 hroot
  obtain ⟨m', hm'⟩ := (contains_iff _ _).1 hroot'
  obtain ⟨raw, d, -, hset, -, himports⟩ := hsys.settles hm
  obtain ⟨text₀, htext₀, hraw⟩ := readFrom_eq_some_iff.1 hset.read
  obtain rfl := Option.some.inj (htext.symm.trans htext₀)
  obtain ⟨line, hraw'⟩ := read_importing hend p hraw
  have hread' : readFrom source' (Path.absolute path) =
      some (raw.withImport ⟨String.ofList p.chars, none, line⟩) :=
    readFrom_eq_some_iff.2 ⟨_, htext', hraw'⟩
  -- what the file imports stays as it is, since the file itself is not among it
  have hbelow : ∀ g ∈ m.imports.values, ∀ k, lib.Reaches g k →
      final' k = final k ∧ lib'.find? k = lib.find? k := by
    intro g hg
    have hedge : lib.Imports (Path.absolute path) g := ⟨m, hm, hg⟩
    rw [himports, hset.links_eq] at hg
    obtain ⟨j, hj, rfl⟩ := exists_import_of_mem_links hg
    rw [hset.file_raw] at hedge ⊢
    have hedge' := hsys'.imports_target hm' hread' (mem_append_left _ hj)
    exact hsys.same_of_reaches hsys' (hsys.closed _ _ hedge) (hsys'.closed _ _ hedge') fun k hk =>
      hothers k (hsys.ne_of_imports hedge hk)
  obtain ⟨hmodel, hlinks⟩ := hsys.find?_withImport hsys' hm hm' rfl hset.read hread' hbelow
  refine ⟨m, m', hm, hm', ?_, fun f hf hne => ?_⟩
  · rw [hmodel, hlinks, links_withImport, hset.file_raw]
    rfl
  · obtain rfl | ⟨g, ⟨m₀, hm₀, hg⟩, hk⟩ := Relation.ReflTransGen.cases_head hf
    · exact absurd rfl hne
    · obtain rfl := Option.some.inj (hm.symm.trans hm₀)
      exact (hbelow g hg f hk).2

/-- Two files that declare the same names. -/
def rivals : FileSystem where
  texts := empty |>.insert "/a.def" "enum E \x7b S \x7d" |>.insert "/b.def" "enum E \x7b L, S \x7d"
  unreadable := []
  refusal := id

/-- A message that uses one of them. -/
def usesRival : String := "import \"a\" message M \x7b e: E = S \x7d"

theorem ofText_usesRival : ∃ lib, (ofText rivals ".def" "/m.def" usesRival).result = .ok lib ∧
    lib.reachableFiles "/m.def" = ["/m.def", "/a.def"] :=
  exists_of_map_toOption (p := (Library.reachableFiles · "/m.def")) (by decide +kernel)

theorem ofText_importing_rival :
    ∃ lib, (ofText rivals ".def" "/m.def" (importing usesRival ['\n'] ['b'])).result = .ok lib ∧
      lib.reachableFiles "/m.def" = ["/m.def", "/a.def", "/b.def"] :=
  exists_of_map_toOption (p := (Library.reachableFiles · "/m.def")) (by decide +kernel)

theorem models_importing_rival :
    ∃ lib lib' m m', (ofText rivals ".def" "/m.def" usesRival).result = .ok lib ∧
    (ofText rivals ".def" "/m.def" (importing usesRival ['\n'] ['b'])).result = .ok lib' ∧
    lib.find? "/m.def" = some m ∧ lib'.find? "/m.def" = some m' ∧
    m' = { m with imports := m.imports.insert "b" "/b.def" } ∧ lib'.find? "/a.def" =
      lib.find? "/a.def" := by
  obtain ⟨lib, hlib, hfiles⟩ := ofText_usesRival
  obtain ⟨lib', hlib', -⟩ := ofText_importing_rival
  have hpath : Path.absolute "/m.def" = "/m.def" := by decide +kernel
  have htarget : Path.ofImport ".def" (Path.absolute "/m.def") "b" = "/b.def" := by decide +kernel
  have hquotable : IsQuotable ['b'] := .char (by decide) (by decide) rfl .nil
  obtain ⟨m, m', hm, hm', hmodel, hothers⟩ :=
    models_importing (.ofText hlib) (.ofText hlib') (.inl rfl) ⟨['b'], hquotable⟩ (if_pos rfl)
    (if_pos rfl) fun f hf => (if_neg hf).trans (if_neg hf).symm
  have hreach : lib.Reaches "/m.def" "/a.def" :=
    (Library.reaches_of_mem_reachableFiles (by rw [hfiles]; decide)).1
  rw [hpath] at hm hm' hothers
  refine ⟨lib, lib', m, m', hlib, hlib', hm, hm', ?_, hothers _ hreach (by decide)⟩
  rw [← htarget]
  exact hmodel

end Compilation

end MessageSchema
