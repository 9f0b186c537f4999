/-
  What a file can refer to.

  The names of a text are bound to entities of the file itself and of the files that
  it imports directly.
-/
import MessageSchema.Proofs.Lookup
import MessageSchema.Proofs.References

namespace MessageSchema

open List QualifiedName Draft

/-! ## Before the passes -/

namespace Draft

section
variable {P P' : TypeName → TypeRef → Prop} {Q : TypeRef → Prop} {g : TypeName → TypeName}
  {T : MessageSchema.FieldType} {result : Model.Message} {t : FieldType} {n : TypeName}
  {m : Message} {home : Option String} {e : Enumeration}

theorem ScalarType.Bound.of_mapNames {s : ScalarType} (h : (FieldType.mapScalar g s).Bound P T)
    (hP : ∀ n ∈ s.names, ∀ ref, P (g n) ref → P' n ref) : s.Bound P' T := by
  cases s with
  | primitive p => cases h; exact .primitive p
  | named n =>
    have hn := hP n (mem_singleton_self n)
    cases h with
    | entity href hkind => exact .entity (hn _ href) hkind
    | compound href hkind => exact .compound (hn _ href) hkind

theorem ElementType.Bound.of_mapNames {t : ElementType} (h : (FieldType.mapElement g t).Bound P Q T)
    (hP : ∀ n ∈ t.names, ∀ ref, P (g n) ref → P' n ref) : t.Bound P' Q T := by
  cases t with
  | scalar s =>
    cases h with
    | scalar hs => exact .scalar (hs.of_mapNames hP)
  | inline kind values =>
    cases h with
    | inline hq => exact .inline hq
  | compound base components =>
    cases base with
    | primitive p => cases h; exact .compound p components
    | named n => cases h

theorem FieldType.Bound.of_mapNames (h : (t.mapNames g).Bound P Q T)
    (hP : ∀ n ∈ t.names, ∀ ref, P (g n) ref → P' n ref) : t.Bound P' Q T := by
  induction t generalizing T with
  | element e =>
    cases h with
    | element he => exact .element (he.of_mapNames hP)
  | array e =>
    cases h with
    | array he => exact .array (he.of_mapNames hP)
  | map key value ih =>
    cases h with
    | map hk hv =>
      exact .map (hk.of_mapNames fun n hn => hP n (mem_append_left _ hn))
        (ih hv fun n hn => hP n (mem_append_right _ hn))

theorem ElementType.Bound.of_named {kind : EnumKind} {values : List RawValue}
    (h : (ElementType.scalar (.named n)).Bound P Q T)
    (hn : ∀ ref, P n ref → ref.kind ≠ .compound ∧ Q ref) :
    (ElementType.inline kind values).Bound P Q T := by
  cases h with
  | scalar hs =>
    cases hs with
    | entity href _ => exact .inline (hn _ href).2
    | compound href hkind => exact absurd hkind (hn _ href).1

theorem FieldType.Bound.of_replaceInline (h : (t.replaceInline n).Bound P Q T)
    (hn : t.hasInline = true → ∀ ref, P n ref → ref.kind ≠ .compound ∧ Q ref) : t.Bound P Q T := by
  induction t generalizing T with
  | element e =>
    cases e with
    | inline kind values =>
      cases h with
      | element he => exact .element (he.of_named (hn rfl))
    | scalar s => exact h
    | compound base components => exact h
  | array e =>
    cases e with
    | inline kind values =>
      cases h with
      | array he => exact .array (he.of_named (hn rfl))
    | scalar s => exact h
    | compound base components => exact h
  | map key value ih =>
    cases h with
    | map hk hv => exact .map hk (ih hv hn)

theorem rel_of_map {R R' : TypeName → TypeRef → Prop} {o : Option TypeName}
    {result : Option TypeRef} (h : Option.Rel R (o.map g) result)
    (hR : ∀ p, o = some p → ∀ ref, R (g p) ref → R' p ref) : Option.Rel R' o result := by
  cases o with
  | none => cases h; exact .none
  | some p =>
    cases h with
    | some h => exact .some (hR p rfl _ h)

theorem Message.Bound.of_mapNames (h : (m.mapNames g).Bound P Q result)
    (hparent : ∀ p, m.parent = some p → ∀ ref, P (g p) ref → P' p ref)
    (hfields : ∀ f ∈ m.fields, ∀ n ∈ f.type.names, ∀ ref, P (g n) ref → P' n ref) :
    m.Bound P' Q result := by
  refine ⟨h.name, rel_of_map h.parent fun p hp ref hr => ⟨hparent p hp ref hr.1, hr.2⟩, ?_⟩
  exact Model.forall₂_of_map h.fields fun f hf F hF => ⟨hF.1, hF.2.of_mapNames (hfields f hf)⟩

theorem Message.Bound.of_lifted (h : (m.lifted home).Bound P Q result)
    (hn : ∀ f ∈ m.fields, f.type.hasInline = true → ∀ ref, P (f.liftedName home m.name) ref →
      ref.kind ≠ .compound ∧ Q ref) : m.Bound P Q result := by
  refine ⟨h.name, h.parent, ?_⟩
  exact Model.forall₂_of_map h.fields fun f hf F hF => ⟨hF.1, hF.2.of_replaceInline (hn f hf)⟩

theorem Message.Bound.of_passes {g' : TypeName → TypeName}
    (h : (((m.mapNames g).mapNames g').lifted home).Bound P Q result) (hm : m.AsRead)
    (hP : ∀ n : TypeName, n.Fresh → ∀ ref, P (g' (g n)) ref → P' n ref)
    (hQ : ∀ f ∈ m.fields, f.type.hasInline = true → ∀ ref, P (f.liftedName home m.name) ref →
      ref.kind ≠ .compound ∧ Q ref) : m.Bound P' Q result := by
  have hlifted : ((m.mapNames g).mapNames g').Bound P Q result := by
    refine h.of_lifted fun f'' hf'' hinline ref href => ?_
    obtain ⟨f', hf', rfl⟩ := mem_map.1 hf''
    obtain ⟨f, hf, rfl⟩ := mem_map.1 hf'
    simp only [FieldType.hasInline_mapNames] at hinline
    exact hQ f hf hinline ref href
  have hresolved : (m.mapNames g).Bound (fun n => P (g' n)) Q result :=
    hlifted.of_mapNames (fun _ _ _ hr => hr) fun _ _ _ _ _ hr => hr
  exact hresolved.of_mapNames (fun p hp => hP p (hm.parent p hp))
    fun f hf n hn => hP n (hm.fieldType f hf n hn)

theorem Enumeration.Bound.of_mapNames {result : Model.Enumeration}
    (h : (e.mapNames g).Bound P result)
    (hparent : ∀ p, e.parent = some p → ∀ ref, P (g p) ref → P' p ref) : e.Bound P' result :=
  ⟨h.name, rel_of_map h.parent fun p hp ref hr => ⟨hparent p hp ref hr.1, hr.2⟩⟩

theorem Enumeration.Bound.imp {result : Model.Enumeration} (h : e.Bound P result)
    (hparent : ∀ p, e.parent = some p → ∀ ref, P p ref → P' p ref) : e.Bound P' result := by
  refine ⟨h.name, rel_of_map (g := id) (by rw [Option.map_id]; exact h.parent)
    fun p hp ref hr => ?_⟩
  exact ⟨hparent p hp ref hr.1, hr.2⟩

end

/-- Enumerations of a model: those that a text declares, and others that inherit from
    nothing. -/
def Enumerations.Written (P : TypeName → TypeRef → Prop) (es : List Enumeration)
    (results : List Model.Enumeration) : Prop :=
  ∃ own promoted, results = own ++ promoted ∧ Forall₂ (Enumeration.Bound P) es own ∧
    ∀ e ∈ promoted, e.parent = none

/-- A namespace of a model comes from the text of a namespace. -/
structure Scope.Written (P : TypeName → TypeRef → Prop) (Q : TypeRef → Prop) (s : Scope)
    (ns : Model.Namespace) : Prop where
  messages : Forall₂ (Message.Bound P Q) s.messages ns.messages
  enums : Enumerations.Written P s.enums ns.enums
  options : Enumerations.Written P s.options ns.options

variable {P P' : TypeName → TypeRef → Prop}

theorem exists_append_of_forall₂ {α β : Type} {R : α → β → Prop} {as bs : List α} {cs : List β}
    (h : Forall₂ R (as ++ bs) cs) :
    ∃ xs ys, cs = xs ++ ys ∧ Forall₂ R as xs ∧ Forall₂ R bs ys := by
  induction as generalizing cs with
  | nil => exact ⟨[], cs, rfl, .nil, h⟩
  | cons a as ih =>
    cases h with
    | cons hr hrest =>
      obtain ⟨xs, ys, rfl, hxs, hys⟩ := ih hrest
      exact ⟨_ :: xs, ys, rfl, .cons hr hxs, hys⟩

theorem Enumerations.written_of_append {es new : List Enumeration}
    {G : Enumeration → Enumeration} {results : List Model.Enumeration}
    (h : Forall₂ (Enumeration.Bound P) (es.map G ++ new) results)
    (hes : ∀ e ∈ es, ∀ result, (G e).Bound P result → e.Bound P' result)
    (hnew : ∀ e ∈ new, e.parent = none) : Enumerations.Written P' es results := by
  obtain ⟨own, promoted, rfl, hown, hpromoted⟩ := exists_append_of_forall₂ h
  refine ⟨own, promoted, rfl, Model.forall₂_of_map hown hes, fun result hresult => ?_⟩
  obtain ⟨e, he, hbound⟩ := exists_left_of_mem hpromoted hresult
  have hparent := hbound.parent
  rw [hnew e he] at hparent
  cases hresult : result.parent with
  | none => rfl
  | some ref => rw [hresult] at hparent; cases hparent

/-- **A namespace before the passes**: its names are bound as those that the passes put
    in their place. -/
theorem Scope.Bound.written {Q : TypeRef → Prop} {g g' : TypeName → TypeName} {home : Option String}
    {s s' : Scope} {ns : Model.Namespace} (h : s'.Bound P Q ns)
    (hs : ((s.mapNames g).mapNames g').promote home = (s', none)) (hread : s.AsRead)
    (hfresh : ∀ n : TypeName, n.Fresh → ∀ ref, ¬ P n ref)
    (hP : ∀ n : TypeName, n.Fresh → ∀ ref, P (g' (g n)) ref → P' n ref)
    (hQ : ∀ e, .enumeration e ∈ Model.declarationsOf s' → ∀ ref, P ⟨join home e.name, true⟩ ref →
      ref.kind ≠ .compound ∧ Q ref) :
    s.Written P' Q ns := by
  have hinline : ∀ m ∈ s.messages, ∀ f ∈ m.fields, f.type.hasInline = true → ∀ ref,
      P (f.liftedName home m.name) ref → ref.kind ≠ .compound ∧ Q ref := by
    intro m hm f hf hin ref href
    have hm' : (m.mapNames g).mapNames g' ∈ ((s.mapNames g).mapNames g').messages :=
      mem_map_of_mem (mem_map_of_mem hm)
    have hf' := mem_map_of_mem (f := fun x : Field => { x with type := x.type.mapNames g' })
      (mem_map_of_mem (f := fun x : Field => { x with type := x.type.mapNames g }) hf)
    obtain ⟨e, he, hpromotes⟩ := Scope.exists_promoted hs hm' hf'
      (by simp only [FieldType.hasInline_mapNames]; exact hin)
    refine hQ e he ref ?_
    rw [hpromotes.name_eq.1]
    exact href
  obtain ⟨new, ⟨-, hnone⟩, rfl⟩ := Scope.promote_eq hs
  obtain ⟨hmessages, henums, hoptions⟩ := h
  refine ⟨?_, ?_, ?_⟩
  · simp only [Scope.mapNames, map_map] at hmessages
    refine Model.forall₂_of_map hmessages fun m hm result hr => ?_
    exact Message.Bound.of_passes hr (hread.message m hm) hP (hinline m hm)
  · simp only [Scope.mapNames, map_map] at henums
    refine Enumerations.written_of_append henums (fun e he result hr => ?_) fun e he => ?_
    · have hresolved : (e.mapNames g).Bound (fun n => P (g' n)) result :=
        hr.of_mapNames fun _ _ _ hr => hr
      exact hresolved.of_mapNames fun p hp => hP p ((hread.enumeration e he).parent p hp)
    · exact hnone e (mem_filter.1 he).1
  -- the parents of sets of flags are not looked up, so none is bound
  · have hoptions : Forall₂ (Enumeration.Bound P) (s.options.map id ++ new.filter (·.kind = .flags))
        ns.options := by
      rw [map_id]
      exact hoptions
    refine Enumerations.written_of_append hoptions (fun e he result hr => ?_) fun e he => ?_
    · exact hr.imp fun p hp ref href =>
        absurd href (hfresh p ((hread.options e he).parent p hp) ref)
    · exact hnone e (mem_filter.1 he).1

end Draft

/-! ## What a file sees -/

/-- What the file `f`, read as `raw`, sees of the file `g` by names that start with the
    word `first`. -/
structure Sees (ext f : String) (raw : Draft) (first g : String) : Prop where
  direct : g = f ∨ ∃ i ∈ raw.imports, Path.ofImport ext f i.path = g
  /-- a file that is only imported under local names is seen by these -/
  aliased : (∃ i ∈ raw.imports, Path.ofImport ext f i.path = g) →
    (∀ i ∈ raw.imports, Path.ofImport ext f i.path = g → i.localName ≠ none) →
    ∃ i ∈ raw.imports, Path.ofImport ext f i.path = g ∧ i.localName = some first

/-- The entity that a reference names, looked up from the file `f`, is one that the
    file `g` declares. -/
def Library.Declares (lib : Library) (f : String) (ref : TypeRef) (g : String) : Prop :=
  ∃ m e, lib.find? g = some m ∧ m.own? ref.name = some e ∧ lib.resolve? f ref = some e

/-- A name of the file `f`, read as `raw`, becomes a reference to an entity of a file
    that `f` sees by the first word of the name. -/
def Library.Visible (lib : Library) (ext f : String) (raw : Draft) (n : TypeName) (ref : TypeRef) :
    Prop :=
  ∃ g, lib.Declares f ref g ∧ Sees ext f raw (firstSegment n.text) g

namespace Settles

variable {ext : String} {source : String → Option String} {final : String → Option Draft}
  {f : String} {raw d : Draft} (h : Settles ext source final f raw d)
include h

variable {k g : String}

theorem sees_of_plain (hk : (raw.links ext).find? k = some g)
    (hplain : ∀ j ∈ raw.imports, j.localName ≠ some k) (first : String) :
    Sees ext f raw first g := by
  obtain ⟨i, hi, rfl, htarget⟩ := exists_import_of_find?_links hk
  rw [h.file_raw] at htarget
  have hnone : i.localName = none := by
    cases hname : i.localName with
    | none => rfl
    | some a => exact absurd hname (by simpa [Import.key, hname] using hplain i hi)
  exact ⟨.inr ⟨i, hi, htarget⟩, fun _ hall => absurd hnone (hall i hi htarget)⟩

theorem sees_of_named (hk : (raw.links ext).find? k = some g) {j : Import}
    (hj : j ∈ raw.imports) (hname : j.localName = some k) : Sees ext f raw k g := by
  have hkey : j.key = k := by rw [Import.key, hname, Option.getD_some]
  have hlink : (raw.links ext).find? j.key = some (Path.ofImport ext raw.file j.path) :=
    find?_links h.keys hj
  rw [hkey, hk, h.file_raw] at hlink
  have htarget := (Option.some.inj hlink).symm
  exact ⟨.inr ⟨j, hj, htarget⟩, fun _ _ => ⟨j, hj, htarget, hname⟩⟩

end Settles

namespace System

variable {ext : String} {source : String → Option String} {final : String → Option Draft}
  {lib : Library} (h : System ext source final lib) {f : String}
include h

theorem ne_target {raw d : Draft} (hd : final f = some d) (hset : Settles ext source final f raw d)
    {i : Import} (hi : i ∈ raw.imports) : Path.ofImport ext f i.path ≠ f := by
  intro heq
  obtain ⟨rank, hrank⟩ := h.ranked
  have hmem : Path.ofImport ext raw.file i.path ∈ (raw.links ext).values := mem_links hset.keys hi
  rw [hset.file_raw, heq, ← hset.links_eq] at hmem
  exact absurd (hrank hd f hmem) (Nat.lt_irrefl _)

variable {m : Model} (hm : lib.find? f = some m)
include hm

variable {ref : TypeRef} {raw d : Draft} {u : Visit}

theorem declares_of_own? (hres : lib.Resolves f ref) {m' : Model}
    (hm' : m' ∈ lib.reachable f) {e : Model.Entity} (he : m'.own? ref.name = some e) :
    lib.Declares f ref m'.file := by
  obtain ⟨e', he', -, -⟩ := hres
  refine ⟨m', e, (h.mem_reachable hm').2, he, ?_⟩
  have hlookup : lib.lookup? f ref.name = some e := (h.lookup?_iff hm).2 ⟨m', hm', he⟩
  rw [Library.resolve?, hlookup] at he' ⊢
  cases (Option.filter_eq_some_iff.1 he').1
  exact he'

theorem own?_of_linked (hset : Settles ext source final f raw d) (hlinks : m.imports = d.links ext)
    {k q : String} {x : Draft} (hk : (k, x) ∈ raw.linked ext final) (hq : q ∈ x.symbols.entities) :
    ∃ m' ∈ lib.reachable f, ∃ e,
      (raw.links ext).find? k = some m'.file ∧ m'.own? q = some e := by
  obtain ⟨g, hg, hx⟩ := mem_linked_iff.1 hk
  have himports : lib.Imports f g := by
    refine ⟨m, hm, ?_⟩
    rw [hlinks, hset.links_eq]
    exact (Table.mem_values_iff _ _).2 ⟨k, hg⟩
  obtain ⟨m', hm'⟩ := (Table.contains_iff _ _).1 (h.closed f g himports)
  obtain ⟨raw', d', hd', hset', hmodels', -⟩ := h.settles hm'
  rw [hx] at hd'
  cases hd'
  obtain ⟨e, he⟩ := hmodels'.own?_of_mem_entities hset'.refined hq
  refine ⟨m', (Library.mem_reachable_iff h.closed (Table.contains_of_find? hm)).2 ⟨g, ?_, hm'⟩, e,
    ?_, he⟩
  · exact .single himports
  · rw [h.file_eq hm', hg]

/-- **A name is bound to an entity that its file sees.** -/
theorem visible_of_puts (hd : final f = some d) (hset : Settles ext source final f raw d)
    (hmodels : Model.Models lib d m) (hlinks : m.imports = d.links ext)
    (hu : u ∈ raw.wrap.useColons.walk) {n : TypeName} (hn : n.Fresh)
    (hputs : (Model.binderOf lib d m.imports).Puts
      ((raw.wrap.useColons.surroundings (raw.linked ext final)).resolve
      (u.enclosing.map Site.region) n.useColons) ref) :
    lib.Visible ext f raw n ref := by
  have hres := h.resolves_of_puts hm hmodels hputs
  obtain ⟨hresolved, hname, -⟩ := hputs.cases
  have hfresh : n.useColons.resolved = false := by rw [TypeName.useColons]; exact hn.1
  -- only a name that denotes something is bound
  obtain ⟨q, hq⟩ : ∃ q, (raw.wrap.useColons.surroundings (raw.linked ext final)).lookup
      (u.enclosing.map Site.region) n.useColons.text = some q := by
    rw [Surroundings.resolve, hfresh] at hresolved
    split at hresolved
    · next hfalse => cases hfalse
    · split at hresolved
      · next q hq => exact ⟨q, hq⟩
      · rw [hfresh] at hresolved; cases hresolved
  have hrefname : ref.name = q := by
    rw [hname, Surroundings.resolve, hfresh, hq]
    rfl
  -- what the file itself declares
  have hown : q ∈ raw.wrap.useColons.symbols.entities → lib.Visible ext f raw n ref := by
    intro hmem
    obtain ⟨e, he⟩ :=
      hmodels.own?_of_mem_entities hset.refined (hset.refined.mem_entities_of_before hmem)
    rw [← hrefname] at he
    have hdeclares := h.declares_of_own? hm hres (h.mem_reachable_self hm) he
    rw [h.file_eq hm] at hdeclares
    refine ⟨f, hdeclares, .inl rfl, fun ⟨i, hi, htarget⟩ _ => ?_⟩
    exact absurd htarget (h.ne_target hd hset hi)
  have himports : raw.wrap.useColons.imports = raw.imports := wrap_imports raw
  rcases Surroundings.lookup_cases hq with ⟨r, hr, hqr⟩ | hmem | ⟨i, hi, hqi⟩ | ⟨i, hi, hlocal, hqi⟩
  · obtain ⟨site, hsite, rfl⟩ := mem_map.1 hr
    obtain ⟨u', hu', rfl⟩ := exists_visit_of_mem_enclosing hu hsite
    exact hown (mem_entities_of_visit hu' hqr)
  · exact hown hmem
  · obtain ⟨k, x, hk, rfl, hplain⟩ := exists_of_mem_plain hi
    have hqx : q ∈ x.symbols.entities := hqi.elim mem_entities_of_root id
    obtain ⟨m', hm', e, hg, he⟩ := h.own?_of_linked hm hset hlinks hk hqx
    rw [← hrefname] at he
    rw [himports] at hplain
    exact ⟨m'.file, h.declares_of_own? hm hres hm' he, hset.sees_of_plain hg hplain _⟩
  · obtain ⟨x, hk, hentities, j, hj, hjname⟩ := exists_of_mem_named hi
    obtain ⟨m', hm', e, hg, he⟩ := h.own?_of_linked hm hset hlinks hk (hentities q hqi)
    rw [← hrefname] at he
    rw [himports] at hj
    have hfirst : i.localName = firstSegment n.text := hlocal.trans (head_withColons hn.2)
    rw [hfirst] at hg hjname
    exact ⟨m'.file, h.declares_of_own? hm hres hm' he, hset.sees_of_named hg hj hjname⟩

theorem declares_of_inline (hmodels : Model.Models lib d m) {v : Visit} (hv : v ∈ d.walk)
    {e : Enumeration} (he : .enumeration e ∈ Model.declarationsOf v.site.ns.scope)
    (hputs : (Model.binderOf lib d m.imports).Puts
      ⟨join (some v.site.qualified) e.name, true⟩ ref) :
    ref.kind ≠ .compound ∧ lib.Declares f ref f := by
  have hres := h.resolves_of_puts hm hmodels hputs
  have hdeclared := Model.find?_declared hmodels.faultless hmodels.finished hv he
  obtain ⟨own, hown, -⟩ := hmodels.own?_of_declared hdeclared
  obtain ⟨-, hname, ⟨x, hx, hkind⟩ | ⟨hnone, -⟩⟩ := hputs.cases
  · cases hdeclared.symm.trans hx
    have hq : ref.name = join (some v.site.qualified) (Model.Declaration.enumeration e).name :=
      hname
    rw [← hq] at hown
    have hdeclares := h.declares_of_own? hm hres (h.mem_reachable_self hm) hown
    rw [h.file_eq hm] at hdeclares
    refine ⟨fun hcompound => ?_, hdeclares⟩
    rw [hkind, Model.Declaration.kind] at hcompound
    split at hcompound <;> cases hcompound
  · cases hdeclared.symm.trans hnone

/-- A namespace of a file and what it becomes. -/
theorem written_of_visit (hd : final f = some d) (hset : Settles ext source final f raw d)
    (hmodels : Model.Models lib d m) (hlinks : m.imports = d.links ext) {ns : Namespace}
    (hns : ns.scope.AsRead) (hu : u ∈ raw.wrap.useColons.walk)
    (huns : u.site.ns = { ns with scope := ns.scope.mapNames TypeName.useColons }) :
    ∃ v ∈ d.walk, v.site.index = u.site.index ∧ v.site.ns.name = ns.name ∧
      ns.scope.Written (lib.Visible ext f raw) (lib.Declares f · f)
        (Model.namespaceAt lib d m.imports v) := by
  obtain ⟨v, hv, hindex, hqualified, s, hs, hvns⟩ := hset.refined.after hu
  refine ⟨v, hv, hindex, by rw [hvns, huns], ?_⟩
  have hscope : v.site.ns.scope = s := by rw [hvns]
  rw [Visit.resolved, huns] at hs
  refine Scope.Bound.written (hscope ▸ hmodels.bound hv) hs hns ?_ ?_ ?_
  · intro n hn ref hputs
    have hresolved := hputs.cases.1
    rw [hn.1] at hresolved
    cases hresolved
  · exact fun n hn ref hputs => h.visible_of_puts hm hd hset hmodels hlinks hu hn hputs
  · intro e he ref hputs
    rw [← hqualified] at hputs
    exact h.declares_of_inline hm hmodels hv (hscope ▸ he) hputs

/-- **The namespaces of a model come from the text of its file**, with its names bound to
    entities that the file sees. -/
theorem written : ∃ raw, readFrom source f = some raw ∧ Forall₂ (fun ns N => N.name = ns.name ∧
    ns.scope.Written (lib.Visible ext f raw) (lib.Declares f · f) N) raw.wrap.arena
      m.namespaces := by
  obtain ⟨raw, d, hd, hset, hmodels, hlinks⟩ := h.settles hm
  refine ⟨raw, hset.read, forall₂_of_getElem? ?_ fun i ns hns => ?_⟩
  · rw [hmodels.length_namespaces, length_eq_of_outline_eq hset.refined.outline, useColons,
      length_map]
  · have hi : raw.wrap.useColons.arena[i]? =
        some { ns with scope := ns.scope.mapNames TypeName.useColons } := by
      rw [useColons, getElem?_map, hns, Option.map_some]
    obtain ⟨u, hu, rfl, huns⟩ := hset.asRead.covered_useColons.exists_visit hi
    obtain ⟨v, hv, hindex, hname, hwritten⟩ := h.written_of_visit hm hd hset hmodels hlinks
      (hset.asRead.arena_wrap ns (mem_of_getElem? hns)) hu huns
    refine ⟨_, ?_, hname, hwritten⟩
    rw [← hindex]
    exact hmodels.getElem?_namespaces hv

end System

namespace Compilation

/-- **A name is bound to what its file sees**: in each file of a compilation, a name that
    the text has for a type or a parent becomes a reference to an entity that the file
    itself or a directly imported file declares, and if that file is only imported under
    local names, the name starts with one of them. -/
theorem written_of_compiles {fs : FileSystem} {ext path : String} {source : String → Option String}
    {lib : Library} (h : Compiles fs ext path source lib) :
    lib.contains (Path.absolute path) = true ∧ ∀ m ∈ lib.reachable (Path.absolute path),
      ∃ raw, Draft.readFrom source m.file = some raw ∧ Forall₂ (fun ns N => N.name = ns.name ∧
        ns.scope.Written (lib.Visible ext m.file raw) (lib.Declares m.file · m.file) N)
        raw.wrap.arena m.namespaces := by
  obtain ⟨final, hsys, hroot⟩ := h.system
  exact ⟨hroot, fun m hm => hsys.written (hsys.mem_reachable hm).2⟩

/-- The fields of an order name the items by the local name of their file. -/
theorem written_shop : ∃ (lib : Library) (m : Model) (raw : Draft),
    Compiles shop ".def" "/shop/order.def" shop.texts.find? lib ∧
    m ∈ lib.reachable "/shop/order.def" ∧ m.file = "/shop/order.def" ∧
    raw.imports.map (·.localName) = [some "I", none] ∧
    (raw.wrap.arena.flatMap (·.scope.messages)).map (fun x => (x.parent.map (·.text),
      x.fields.map fun y => y.type.names.map (·.text))) = [(some "Party", [["I::Item"], []])] ∧
    Forall₂ (fun ns N => N.name = ns.name ∧ ns.scope.Written (lib.Visible ".def" m.file raw)
      (lib.Declares m.file · m.file) N) raw.wrap.arena m.namespaces := by
  obtain ⟨lib, hlib, -⟩ := ofFile_shop
  obtain ⟨final, hsys, hroot⟩ := (Compiles.ofFile hlib).system
  rw [absolute_order] at hroot
  obtain ⟨m, hm⟩ := (Table.contains_iff _ _).1 hroot
  have hmem := hsys.mem_reachable_self hm
  obtain ⟨raw, hraw, hwritten⟩ :=
    (written_of_compiles (.ofFile hlib)).2 m (by rw [absolute_order]; exact hmem)
  have hread : (readFrom shop.texts.find? "/shop/order.def").map (fun raw =>
      (raw.imports.map (·.localName), (raw.wrap.arena.flatMap (·.scope.messages)).map fun x =>
        (x.parent.map (·.text), x.fields.map fun y => y.type.names.map (·.text)))) =
      some ([some "I", none], [(some "Party", [["I::Item"], []])]) := by decide +kernel
  rw [hsys.file_eq hm] at hraw
  rw [hraw] at hread
  obtain ⟨hnames, hwords⟩ := Prod.mk.inj (Option.some.inj hread)
  exact ⟨lib, m, raw, .ofFile hlib, hmem, hsys.file_eq hm, hnames, hwords, hwritten⟩

end Compilation

end MessageSchema
