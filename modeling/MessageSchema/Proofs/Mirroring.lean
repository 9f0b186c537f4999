/-
  Drafts that mirror each other, and what is built of them.

  Two drafts mirror each other if they declare the same in the same namespaces, in any
  order and with other origins.  Then nothing is wrong with both or with neither, and
  their models bind the same names to the same entities, origins apart.
-/
import MessageSchema.Proofs.Carrying
import MessageSchema.Proofs.FieldOwners
import MessageSchema.Proofs.ModelShapes
import MessageSchema.Proofs.RelatedDrafts

namespace MessageSchema

open List Draft Table

variable {g : Origin → Origin}

/-! ## Binders -/

namespace Model

/-- Two binders find the same under every name, origins apart. -/
structure Binder.Mirrors (g : Origin → Origin) (b b' : Binder) : Prop where
  declared : ∀ q, (b'.declared.find? q).map (Declaration.relabel g) =
    (b.declared.find? q).map (Declaration.relabel g)
  imported : ∀ q, (b'.importedEntity? q).map (Entity.relabel g) =
    (b.importedEntity? q).map (Entity.relabel g)

namespace Binder.Mirrors

variable {b b' : Binder} (h : Mirrors g b b')
include h

theorem carries : Carries g b b' := by
  refine ⟨fun q => ?_, fun {q e} he => ?_⟩
  · have hq := congrArg (Option.map Declaration.withoutFields) (h.declared q)
    simpa only [Option.map_map, Function.comp_def, Declaration.withoutFields_relabel] using hq
  · have hq := h.imported q
    rw [he, Option.map_some] at hq
    obtain ⟨e', he', heq⟩ := Option.map_eq_some_iff.1 hq
    exact ⟨e', he', by rw [← Entity.withoutFields_relabel, heq, Entity.withoutFields_relabel]⟩

theorem message? (q : String) :
    (b'.message? q).map (Draft.Message.relabel g) =
      (b.message? q).map (Draft.Message.relabel g) := by
  have hselect : ∀ o : Option Declaration, (o.bind Declaration.message?).map
      (Draft.Message.relabel g) = (o.map (Declaration.relabel g)).bind Declaration.message? := by
    rintro (_ | x)
    · rfl
    · cases x <;> rfl
  rw [Binder.message?, Binder.message?, hselect, hselect, h.declared]

theorem outline? (q : String) : b'.outline? q = b.outline? q := by
  -- names of fields and parents are kept with any origins
  have hkept : ∀ c : Binder, c.outline? q =
      (((c.message? q).map (Draft.Message.relabel g)).map fun m =>
      (m.fields.map (·.name), m.parent.map (·.text))).or
        ((((c.importedEntity? q).map (Entity.relabel g)).bind Entity.message?).map fun m =>
          (m.fields.map (·.name), m.parent.map (·.name))) := by
    intro c
    rw [Binder.outline?]
    cases c.message? q with
    | some m => simp [Draft.Message.relabel, Draft.Field.relabel]
    | none =>
      cases c.importedEntity? q with
      | none => rfl
      | some e => cases e <;> simp [Entity.relabel, Entity.message?, Message.relabel, Field.relabel]
  rw [hkept, hkept, h.message?, h.imported]

theorem contains_fieldOwners (q f : String) :
    (b'.fieldOwners q).contains f = (b.fieldOwners q).contains f := by
  have hleads : b'.Leads = b.Leads := by
    funext x y
    simp only [Leads, h.outline?]
  rw [Bool.eq_iff_iff, contains_fieldOwners_iff, contains_fieldOwners_iff, hleads]
  simp only [HasField, h.outline?]

theorem messageCycleFaults (hb : b.messageCycleFaults = []) : b'.messageCycleFaults = [] := by
  have hparent : ∀ (c : Binder) (x y : String), c.Follows x y ↔
      ∃ m p, (c.message? x).map (Draft.Message.relabel g) = some m ∧ m.parent = some p ∧
      p.text = y := by
    intro c x y
    rw [Follows]
    cases c.message? x with
    | none => simp
    | some m => simp [Draft.Message.relabel]
  have hfollows : b'.Follows = b.Follows := by
    funext x y
    rw [eq_iff_iff, hparent, hparent, h.message?]
  rw [messageCycleFaults_eq_nil_iff] at hb ⊢
  rwa [hfollows]

section
variable (hb : b.enumerations.faults = [])
include hb

theorem faults_fields {owner : String} {inherited inherited' : Table String}
    (hinherited : ∀ f, inherited'.contains f = inherited.contains f) {fs fs' : List Draft.Field}
    (hfs : fs'.map (Draft.Field.relabel g) = fs.map (Draft.Field.relabel g)) {own : List String}
    (hnil : (b.fields b.enumerations.finished owner inherited own fs).2 = []) :
    (b'.fields b'.enumerations.finished owner inherited' own fs').2 = [] := by
  induction fs generalizing fs' own with
  | nil =>
    obtain rfl := map_eq_nil_iff.1 hfs
    rfl
  | cons f fs ih =>
    obtain ⟨f', fs', rfl, hone, hrest⟩ := map_eq_cons_iff.1 hfs
    have hname : f'.name = f.name :=
      (congrArg (·.name) hone : (f'.relabel g).name = (f.relabel g).name)
    rw [fields] at hnil ⊢
    rw [hname]
    split at hnil
    · cases hnil
    · next hown =>
      split at hnil
      · cases hnil
      · next hfree =>
        obtain ⟨hfield, hmore⟩ := append_eq_nil_iff.1 hnil
        obtain ⟨T, value, -, hF, -⟩ := field_eq hfield
        obtain ⟨F', hF', -⟩ := h.carries.field hb hone hF
        have hfree' : inherited'.find? f.name = none := by
          have hcontains := hinherited f.name
          rwa [Table.contains, Table.contains, hfree, Option.isSome_none,
            Option.isSome_eq_false_iff, Option.isNone_iff_eq_none] at hcontains
        simp only [if_neg hown, hfree', hF']
        exact ih hrest hmore

/-- **Nothing is wrong with a message** for the one binder if nothing is for the other. -/
theorem faults_message {q : String} {m m' : Draft.Message} (hm : m'.relabel g = m.relabel g)
    (hnil : (b.message b.enumerations.finished q m).2 = []) :
    (b'.message b'.enumerations.finished q m').2 = [] := by
  have hsplit : ∀ (c : Binder) (enums : Table Enumeration) (m : Draft.Message),
    (c.message enums q m).2 = (c.messageParent q m).2 ++
    (c.fields enums q (c.inheritedOf q m) [] m.fields).2 := fun _ _ _ => rfl
  rw [hsplit, append_eq_nil_iff] at hnil ⊢
  obtain ⟨hparent, hfields⟩ := hnil
  have hfrom : m'.parent = m.parent :=
    (congrArg (·.parent) hm : (m'.relabel g).parent = (m.relabel g).parent)
  have hsame : b'.messageParent q m' = b.messageParent q m :=
    h.carries.messageParent_eq hfrom hparent
  refine ⟨by rw [hsame]; exact hparent,
    h.faults_fields hb (fun f => ?_) (congrArg (·.fields) hm) hfields⟩
  rw [inheritedOf, inheritedOf, hsame]
  cases (b.messageParent q m).1 with
  | none => rfl
  | some ref => exact h.contains_fieldOwners ref.name f

theorem faults_messages (hnil : (b.messages b.enumerations.finished).2 = []) :
    (b'.messages b'.enumerations.finished).2 = [] := by
  rw [faults_messages_eq_nil_iff] at hnil ⊢
  intro q m' hm'
  have hmap := h.declared q
  rw [hm', Option.map_some] at hmap
  obtain ⟨x, hx, heq⟩ := Option.map_eq_some_iff.1 hmap.symm
  obtain ⟨m, rfl, hrel⟩ := Declaration.exists_message heq
  exact h.faults_message hb hrel.symm (hnil q m hx)

end

end Binder.Mirrors

theorem faults_ofDraft_eq_nil_iff {lib : Library} {d : Draft} {imports : Table String} :
    (ofDraft lib d imports).2 = [] ↔
      Faultless lib d imports ∧ (binderOf lib d imports).messageCycleFaults = [] := by
  simp only [ofDraft, append_eq_nil_iff]
  constructor
  · rintro ⟨⟨⟨⟨⟨houtside, hindex⟩, howners⟩, henums⟩, hcycles⟩, hmessages⟩
    exact ⟨⟨houtside, hindex, howners, henums, hmessages⟩, hcycles⟩
  · rintro ⟨⟨houtside, hindex, howners, henums, hmessages⟩, hcycles⟩
    exact ⟨⟨⟨⟨⟨houtside, hindex⟩, howners⟩, henums⟩, hcycles⟩, hmessages⟩

end Model

/-! ## Models that mirror each other -/

/-- Two models of one file have the same namespaces and imports, and bind the same names to
    the same entities, origins apart. -/
structure Model.Mirrors (g : Origin → Origin) (m m' : Model) : Prop extends m.SameShape m' where
  own : ∀ q, (m'.own? q).map (Entity.relabel g) = (m.own? q).map (Entity.relabel g)

/-- Two libraries have models of the same files, which mirror each other. -/
abbrev Library.Mirrors (g : Origin → Origin) (lib lib' : Library) : Prop :=
  Related (Model.Mirrors g) lib lib'

variable {lib lib' : Library}

theorem Library.Mirrors.insert (h : lib.Mirrors g lib') {f : String} {m m' : Model}
    (hm : m.Mirrors g m') : Library.Mirrors g (insert lib f m) (insert lib' f m') := by
  intro k
  rw [find?_insert, find?_insert]
  split
  · exact .some hm
  · exact h k

/-- **Libraries that mirror each other bind the same names to the same entities**, origins
    apart, in each file and with all that it imports. -/
theorem Library.Mirrors.entities (h : lib.Mirrors g lib') (f q : String) :
    ((lib'.find? f).bind (·.own? q)).map (Model.Entity.relabel g) =
      ((lib.find? f).bind (·.own? q)).map (Model.Entity.relabel g) ∧
    (lib'.lookup? f q).map (Model.Entity.relabel g) =
      (lib.lookup? f q).map (Model.Entity.relabel g) := by
  constructor
  · obtain ⟨hm, hm'⟩ | ⟨m, m', hm, hm', hmodel⟩ := rel_cases (h f)
    · rw [hm, hm']
    · rw [hm, hm']
      exact hmodel.own q
  · have hreachable := Library.Related.reachable h (fun hm => hm.toSameShape) f
    rw [lookup?, lookup?, map_findSome?, map_findSome?]
    exact (findSome?_eq_of_forall₂ (hreachable.imp fun _ _ hm => (hm.own q).symm)).symm

/-! ### The index -/

namespace Model

namespace Index

variable {ix : Index}

theorem faults_addAll {home : String} {ds : List Declaration} {lines : Table Nat}
    (hnames : (ds.map Declaration.name).Nodup) (hlines : ∀ x ∈ ds, lines.find? x.name = none) :
    (addAll home ds lines ix).faults = ix.faults ∧ (addAll home ds lines ix).namespaces =
      ix.namespaces := by
  induction ds generalizing lines ix with
  | nil => exact ⟨rfl, rfl⟩
  | cons x ds ih =>
    rw [map_cons, nodup_cons] at hnames
    obtain ⟨hx, hds⟩ := forall_mem_cons.1 hlines
    rw [addAll, hx]
    refine ih hnames.2 fun y hy => find?_insert_eq_none_iff.2 ⟨fun hname => ?_, hds y hy⟩
    exact hnames.1 (hname ▸ mem_map_of_mem hy)

/-- **Where all names are distinct, the index has no faults.** -/
theorem faults_foldl_addNamespace {arena : List Draft.Namespace} {ss : List Draft.Site}
    (hhomes : (ss.map (homeOf arena)).Nodup)
    (hnew : ∀ s ∈ ss, ix.namespaces.find? (homeOf arena s) = none)
    (hnames : ∀ s ∈ ss, ((declarationsOf s.ns.scope).map Declaration.name).Nodup) :
    (ss.foldl (addNamespace arena) ix).faults = ix.faults := by
  induction ss generalizing ix with
  | nil => rfl
  | cons s ss ih =>
    rw [map_cons, nodup_cons] at hhomes
    obtain ⟨hs, hss⟩ := forall_mem_cons.1 hnew
    obtain ⟨hname, hrest⟩ := forall_mem_cons.1 hnames
    have hadd : (addNamespace arena ix s).faults = ix.faults ∧
        (addNamespace arena ix s).namespaces = ix.namespaces.insert (homeOf arena s) s.ns.line := by
      have hnone : ix.namespaces.find? (nameOf arena s.index s.ns) = none := hs
      simp only [addNamespace, hnone]
      exact faults_addAll hname fun _ _ => rfl
    rw [foldl_cons, ih hhomes.2 (fun t ht => ?_) hrest, hadd.1]
    rw [hadd.2]
    refine find?_insert_eq_none_iff.2 ⟨fun hhome => ?_, hss t ht⟩
    exact hhomes.1 (hhome ▸ mem_map_of_mem ht)

end Index

theorem faults_index_eq_nil {d : Draft} (hd : d.Finished)
    (hhomes : (d.walk.map (·.site.qualified)).Nodup)
    (hnames : ∀ v ∈ d.walk, ((declarationsOf v.site.ns.scope).map Declaration.name).Nodup) :
    (Index.ofDraft d).faults = [] := by
  refine Index.faults_foldl_addNamespace ?_ (fun _ _ => rfl) fun s hs => ?_
  · have hqualified : (d.walk.map (·.site)).map (Index.homeOf d.arena) =
        d.walk.map (·.site.qualified) := by
      rw [map_map]
      exact map_congr_left fun v hv => nameOf_eq hd hv
    rwa [hqualified]
  · obtain ⟨v, hv, rfl⟩ := mem_map.1 hs
    exact hnames v hv

end Model

/-! ## Drafts that mirror each other -/

namespace Draft

/-- Two scopes have the same declarations, in any order and with other origins. -/
def Scope.Mirrors (g : Origin → Origin) (s t : Scope) : Prop :=
  ((Model.declarationsOf s).map (Model.Declaration.relabel g)).Perm
    ((Model.declarationsOf t).map (Model.Declaration.relabel g))

/-- Two drafts declare the same in the same namespaces, in any order and with other origins. -/
structure Mirrors (g : Origin → Origin) (d e : Draft) : Prop where
  same : d.Same e
  scopes : Forall₂ (fun m n : Namespace => m.qualified = n.qualified ∧ m.scope.Mirrors g n.scope)
    d.arena e.arena

namespace Mirrors

variable {d e : Draft} (h : d.Mirrors g e)
include h

theorem walk : Forall₂ (fun u v : Visit => u.site.qualified = v.site.qualified ∧
    u.site.ns.scope.Mirrors g v.site.ns.scope) d.walk e.walk :=
  (h.same.visits h.scopes).imp fun _ _ huv => ⟨(Visit.site_of_route huv.1).2, huv.2.2⟩

theorem qualified_walk : d.walk.map (·.site.qualified) = e.walk.map (·.site.qualified) :=
  map_eq_of_forall₂ (h.walk.imp fun _ _ hv => hv.1)

theorem declarations : ((Model.declarations d).map (Prod.map id (Model.Declaration.relabel g))).Perm
    ((Model.declarations e).map (Prod.map id (Model.Declaration.relabel g))) := by
  rw [Model.declarations, Model.declarations, map_flatMap, map_flatMap]
  refine perm_flatMap_of_forall₂ (h.walk.imp fun u v hv => ?_)
  have hunder : ∀ (q : String) (ds : List Model.Declaration),
      (Model.Index.under q ds).map (Prod.map id (Model.Declaration.relabel g)) =
        Model.Index.under q (ds.map (Model.Declaration.relabel g)) := by
    intro q ds
    simp [Model.Index.under, Function.comp_def, Model.Declaration.name_relabel]
  rw [hunder, hunder, hv.1]
  exact hv.2.map _

theorem outsideFaults (hnil : Model.outsideFaults d = []) : Model.outsideFaults e = [] := by
  have hnone : Model.declarationsOf e.top = [] := by
    refine eq_nil_iff_forall_not_mem.2 fun x hx => ?_
    have hname := (h.same.top.declared _).2 (mem_declared_iff.2 (.inl (mem_map_of_mem hx)))
    have htop := Model.declarationsOf_top hnil
    rw [mem_declared_iff, htop] at hname
    simp_all [Model.declarationsOf]
  rw [Model.outsideFaults, hnone]

variable (hd : d.Finished) (he : e.Finished)
include hd he

theorem faults_index (hnil : (Model.Index.ofDraft d).faults = []) :
    (Model.Index.ofDraft e).faults = [] := by
  obtain ⟨-, -, -, hnames, -⟩ := Model.Index.foldl_addNamespace_eq d.arena hnil
  refine Model.faults_index_eq_nil he ?_ fun v hv => ?_
  · rw [← h.qualified_walk]
    exact Model.nodup_qualified hd hnil
  · obtain ⟨u, hu, -, huv⟩ := exists_left_of_mem h.walk hv
    have hperm := huv.map Model.Declaration.name
    simp only [map_map, Function.comp_def, Model.Declaration.name_relabel] at hperm
    exact hperm.nodup_iff.1 (hnames u.site (mem_map_of_mem hu))

theorem find?_declared (hnil : (Model.Index.ofDraft d).faults = []) (q : String) :
    ((Model.Index.ofDraft e).declared.find? q).map (Model.Declaration.relabel g) =
      ((Model.Index.ofDraft d).declared.find? q).map (Model.Declaration.relabel g) := by
  have hfound : ∀ {c : Draft}, c.Finished → (Model.Index.ofDraft c).faults = [] → ∀ y,
      ((Model.Index.ofDraft c).declared.find? q).map (Model.Declaration.relabel g) = some y ↔
        (q, y) ∈ (Model.declarations c).map (Prod.map id (Model.Declaration.relabel g)) := by
    intro c hc hfaults y
    simp only [Option.map_eq_some_iff, ← mem_entries_iff, Model.entries_declared hc hfaults,
      mem_map, Prod.exists, Prod.map_apply, Prod.mk.injEq, id_eq]
    constructor
    · rintro ⟨x, hx, rfl⟩
      exact ⟨q, x, hx, rfl, rfl⟩
    · rintro ⟨_, x, hx, rfl, rfl⟩
      exact ⟨x, hx, rfl⟩
  refine Option.ext fun y => ?_
  rw [hfound he (h.faults_index hd he hnil), hfound hd hnil, h.declarations.mem_iff]

omit he in
/-- The namespaces of the two models have the same names. -/
theorem qualified_namespaces (es es' : Model.Entities) :
    (d.arena.mapIdx (Model.namespaceOf d.arena es)).map (·.qualified) =
      (e.arena.mapIdx (Model.namespaceOf e.arena es')).map (·.qualified) := by
  refine ext_getElem? fun i => ?_
  have harena : d.arena.map (·.qualified) = e.arena.map (·.qualified) :=
    map_eq_of_forall₂ (h.scopes.imp fun _ _ hn => hn.1)
  have hi := congrArg (·[i]?) harena
  simp only [getElem?_map] at hi
  simp only [getElem?_map, getElem?_mapIdx]
  cases hm : d.arena[i]? with
  | none =>
    rw [hm, Option.map_none, eq_comm, Option.map_eq_none_iff] at hi
    rw [hi]
    rfl
  | some m =>
    obtain ⟨v, hv, rfl, rfl⟩ := hd.covered.exists_visit hm
    rw [hm, Option.map_some, eq_comm] at hi
    obtain ⟨n, hn, hqualified⟩ := Option.map_eq_some_iff.1 hi
    simp [hn, Model.namespaceOf, Model.Index.nameOf, hqualified, hd.qualified v hv]

/-! ### The model -/

variable {lib lib' : Library} (hlib : lib.Mirrors g lib') (imports : Table String)
include hlib

theorem binderOf (hnil : (Model.Index.ofDraft d).faults = []) :
    (Model.binderOf lib d imports).Mirrors g (Model.binderOf lib' e imports) := by
  refine ⟨h.find?_declared hd he hnil, fun q => ?_⟩
  have hmodels := Library.Related.importedModels hlib (fun hm => hm.toSameShape) imports
  rw [Model.Binder.importedEntity?, Model.Binder.importedEntity?, map_findSome?, map_findSome?]
  exact (findSome?_eq_of_forall₂ (hmodels.imp fun _ _ hm => (hm.own q).symm)).symm

theorem faultless (hf : Model.Faultless lib d imports)
    (hcycles : (Model.binderOf lib d imports).messageCycleFaults = []) :
    Model.Faultless lib' e imports ∧
      (Model.binderOf lib' e imports).messageCycleFaults = [] := by
  have hbinder := h.binderOf hd he hlib imports hf.index
  have hindex := h.faults_index hd he hf.index
  obtain ⟨henums, -⟩ := hbinder.carries.enumerations hf.enums
  refine ⟨⟨h.outsideFaults hf.outside, hindex, ?_, henums,
    hbinder.faults_messages hf.enums hf.messages⟩, hbinder.messageCycleFaults hcycles⟩
  have howners := hf.owners
  rw [Model.keys_namespaces hd hf.index] at howners
  rw [Model.keys_namespaces he hindex, ← h.qualified_walk]
  exact Library.Related.importedNamespaceFaults hlib (fun hm => hm.toSameShape) h.same.file howners

theorem exists_own {m m' : Model} (hm : Model.Models lib d m) (hm' : Model.Models lib' e m')
    (himports : m'.imports = m.imports) {q : String} {E : Model.Entity} (hE : m.own? q = some E) :
    ∃ E', m'.own? q = some E' ∧ E'.relabel g = E.relabel g := by
  have hbinder := h.binderOf hd he hlib m.imports hm.faultless.index
  obtain ⟨-, v, -, x, -, -, hx, hbecomes⟩ := hm.becomes_of_own? hE
  have hmap := h.find?_declared hd he hm.faultless.index q
  rw [hx, Option.map_some] at hmap
  obtain ⟨x', hx', hrel⟩ := Option.map_eq_some_iff.1 hmap
  obtain ⟨E', hE', -⟩ := hm'.own?_of_declared hx'
  obtain ⟨-, -, -, x'', -, -, hx'', hbecomes'⟩ := hm'.becomes_of_own? hE'
  cases hx'.symm.trans hx''
  have hf' := hm'.faultless
  rw [himports] at hf' hbecomes'
  exact ⟨E', hE', hbecomes.relabel_eq hbinder.carries hm.faultless hf' hx hx' hrel hbecomes'⟩

/-- **The models of drafts that mirror each other** bind the same names to the same
    entities, origins apart. -/
theorem ofDraft {m : Model} (hm : Model.ofDraft lib d imports = (m, [])) :
    ∃ m', Model.ofDraft lib' e imports = (m', []) ∧ m.Mirrors g m' := by
  obtain ⟨hf, hcycles⟩ := Model.faults_ofDraft_eq_nil_iff.1 (congrArg Prod.snd hm)
  obtain ⟨hf', hcycles'⟩ := h.faultless hd he hlib imports hf hcycles
  have hm' : Model.ofDraft lib' e imports = ((Model.ofDraft lib' e imports).1, []) :=
    Prod.ext rfl (Model.faults_ofDraft_eq_nil_iff.2 ⟨hf', hcycles'⟩)
  refine ⟨_, hm', ?_⟩
  generalize (Model.ofDraft lib' e imports).1 = m' at hm'
  have himports : m.imports = imports := by rw [(Model.ofDraft_eq hm).1]
  have himports' : m'.imports = imports := by rw [(Model.ofDraft_eq hm').1]
  have hmodels : Model.Models lib d m := ⟨hd, by rw [himports]; exact hm⟩
  have hmodels' : Model.Models lib' e m' := ⟨he, by rw [himports']; exact hm'⟩
  refine ⟨⟨?_, himports.trans himports'.symm, ?_⟩, fun q => ?_⟩
  · rw [hmodels.file, hmodels'.file, h.same.file]
  · rw [hmodels.namespaces_eq, hmodels'.namespaces_eq]
    exact h.qualified_namespaces hd _ _
  · cases hE : m.own? q with
    | some E =>
      obtain ⟨E', hE', hrel⟩ :=
        h.exists_own hd he hlib hmodels hmodels' (himports'.trans himports.symm) hE
      rw [hE', Option.map_some, Option.map_some, hrel]
    | none =>
      cases hE' : m'.own? q with
      | none => rfl
      | some E' =>
        -- what the other draft declares is declared here too, and becomes something
        obtain ⟨-, -, -, x', -, -, hx', -⟩ := hmodels'.becomes_of_own? hE'
        have hmap := h.find?_declared hd he hf.index q
        rw [hx', Option.map_some, eq_comm] at hmap
        obtain ⟨x, hx, -⟩ := Option.map_eq_some_iff.1 hmap
        obtain ⟨E, hsome, -⟩ := hmodels.own?_of_declared hx
        rw [hE] at hsome
        cases hsome

end Mirrors

theorem Matched.mirrors {P : Namespace → Namespace → Prop} {d e : Draft} (h : d.Matched P e)
    (hmirrors : ∀ {m n : Namespace}, m.Matched P n → m.scope.Mirrors g n.scope) : d.Mirrors g e :=
  ⟨h.same, h.arena.imp fun _ _ hmn => ⟨by cases hmn; rfl, hmirrors hmn⟩⟩

end Draft

/-! ## Builds -/

theorem Table.keys_insert_congr {α : Type} {t u : Table α} (h : u.keys = t.keys) (k : String)
    (x y : α) : (u.insert k x).keys = (t.insert k y).keys := by
  by_cases hk : k ∈ t.keys
  · rw [keys_insert_of_mem t hk, keys_insert_of_mem u (h ▸ hk), h]
  · rw [keys_insert_of_not_mem t hk, keys_insert_of_not_mem u (h ▸ hk), h]

namespace Build

/-- Two builds have come to the same, with libraries that mirror each other. -/
structure Mirrors (g : Origin → Origin) (b b' : Build) : Prop where
  library : b.library.Mirrors g b'.library
  keys : b'.library.keys = b.library.keys
  faults : b.faults = b'.faults
  failed : b.failed = b'.failed

/-- Two ways to build a draft succeed on states that mirror each other, if the first does. -/
def Along (g : Origin → Origin) (build build' : Build → Build × Bool) : Prop :=
  ∀ b b' b₁, b.Mirrors g b' → build b = (b₁, true) → ∃ b₁', build' b' = (b₁', true) ∧
    b₁.Mirrors g b₁'

theorem foldl_addImport_of_false (build : Draft → Build → Build × Bool) (xs : List (String × Draft))
    (b : Build) (done : Table String) :
    (xs.foldl (addImport build) (b, done, false)).2.2 = false := by
  induction xs generalizing b done with
  | nil => rfl
  | cons x xs ih =>
    obtain ⟨k, d⟩ := x
    rw [foldl_cons, addImport]
    split
    · exact ih _ _
    · exact ih _ _

/-- Building imports one after the other. -/
theorem mirrors_foldl_addImport {build build' : Draft → Build → Build × Bool}
    {xs ys : List (String × Draft)}
    (hxs : Forall₂ (fun i j => i.1 = j.1 ∧ i.2.file = j.2.file ∧
      Along g (build i.2) (build' j.2)) xs ys)
    {b b' b₁ : Build} (hb : b.Mirrors g b') {done done₁ : Table String}
    (h : xs.foldl (addImport build) (b, done, true) = (b₁, done₁, true)) :
    ∃ b₁', ys.foldl (addImport build') (b', done, true) = (b₁', done₁, true) ∧
      b₁.Mirrors g b₁' := by
  induction hxs generalizing b b' done with
  | nil =>
    cases h
    exact ⟨b', rfl, hb⟩
  | @cons i j xs ys hij _ ih =>
    obtain ⟨k, d⟩ := i
    obtain ⟨k', e⟩ := j
    obtain ⟨rfl, hfile, halong⟩ := hij
    rw [foldl_cons, addImport] at h
    rcases hone : build d b with ⟨b₂, ok⟩
    rw [hone] at h
    cases ok with
    | true =>
      obtain ⟨b₂', hone', hb₂⟩ := halong b b' b₂ hb hone
      rw [foldl_cons, addImport, hone', ← hfile]
      exact ih hb₂ h
    | false =>
      have hfalse := foldl_addImport_of_false build xs b₂ done
      rw [show xs.foldl (addImport build) (b₂, done, false) = _ from h] at hfalse
      cases hfalse

section
variable {P : Namespace → Namespace → Prop}
  (hmirrors : ∀ {m n : Namespace}, m.Matched P n → m.scope.Mirrors g n.scope)
  {w v : Workspace} (hw : w.IsRefined) (hv : v.IsRefined) (h : w.Matched P v)
include hw hv h

theorem along_attachedTo {d e : Draft} (hde : d.Same e) (hd : w.draftAt? d.file = some d)
    (he : v.draftAt? e.file = some e) {build build' : Draft → Build → Build × Bool}
    (halong : ∀ {x y : Draft}, x.Same y → w.draftAt? x.file = some x → v.draftAt? y.file = some y →
      Along g (build x) (build' y)) :
    Forall₂ (fun i j => i.1 = j.1 ∧ i.2.file = j.2.file ∧ Along g (build i.2) (build' j.2))
      (w.attachedTo d) (v.attachedTo e) := by
  have hattached : Forall₂ (fun i j : String × Draft => i.1 = j.1 ∧ i.2.Same j.2)
      (w.attachedTo d) (v.attachedTo e) := by
    have hsame : v.attachedTo e = v.attachments d.attached := congrArg v.attachments hde.attached
    rw [hsame]
    exact Workspace.forall₂_attachments h.drafts d.attached
  -- both lists hold registered drafts only
  have hleft := (forall₂_and_left _ _).2 ⟨hw.attached hd, hattached⟩
  have hboth := (forall₂_and_left _ _).2 ⟨hv.attached he, hleft.flip⟩
  refine hboth.flip.imp fun i j hij => ?_
  obtain ⟨hj, hi, hkey, hsame⟩ := hij
  exact ⟨hkey, hsame.file.symm, halong hsame hi hj⟩

include hmirrors

variable {d e : Draft}

/-- **Building a draft after all that it imports** comes to the same for related drafts. -/
theorem along_file (n : Nat) (chain : List String) (hde : d.Same e)
    (hd : w.draftAt? d.file = some d) (he : v.draftAt? e.file = some e) :
    Along g (file w n chain d) (file v n chain e) := by
  induction n generalizing chain d e with
  | zero =>
    intro b b' b₁ _ hok
    cases hok
  | succ n ih =>
    intro b b' b₁ hb hok
    have himports := along_attachedTo hw hv h hde hd he (ih (chain ++ [d.file]))
    rw [file] at hok ⊢
    rw [hde.file, ← hb.library.contains, ← hb.failed]
    split at hok
    · next hhas =>
      cases hok
      rw [if_pos hhas]
      exact ⟨b', rfl, hb⟩
    · next hhas =>
      split at hok
      · cases hok
      · next hfailed =>
        split at hok
        · cases hok
        · next hchain =>
          rw [if_neg hhas, if_neg hfailed, if_neg hchain]
          split at hok
          · cases hok
          · next b₂ done hfold =>
            obtain ⟨b₂', hfold', hb₂⟩ := mirrors_foldl_addImport himports hb hfold
            rw [hfold']
            split at hok
            · next m hm =>
              cases hok
              obtain ⟨x, hx, hdx⟩ := h.draftAt hd
              rw [← hde.file, he] at hx
              cases hx
              obtain ⟨m', hm', hmodel⟩ := (hdx.mirrors hmirrors).ofDraft (hw.finished hd)
                (hv.finished he) hb₂.library done hm
              simp only [hm']
              refine ⟨_, rfl, hb₂.library.insert hmodel, ?_, hb₂.faults, hb₂.failed⟩
              exact keys_insert_congr hb₂.keys _ _ _
            · cases hok

/-- **The build of a draft**, with all that it imports. -/
theorem mirrors_run (hde : d.Same e) (hd : w.draftAt? d.file = some d)
    (he : v.draftAt? e.file = some e) {lib : Library} {events : List Event}
    (hrun : run w .empty d = (lib, events, .ok ())) :
    ∃ lib' events', run v .empty e = (lib', events', .ok ()) ∧ lib.Mirrors g lib' ∧
      lib'.keys = lib.keys := by
  have hstart : Mirrors g { library := .empty } { library := .empty } :=
    ⟨fun _ => .none, rfl, rfl, rfl⟩
  have halong := along_file hmirrors hw hv h (w.drafts.length + 1) [] hde hd he
  rw [run] at hrun ⊢
  rw [← h.drafts.length_eq]
  rcases hfile : file w (w.drafts.length + 1) [] d { library := .empty } with ⟨b, ok⟩
  rw [hfile] at hrun
  simp only at hrun
  split at hrun
  · next hok =>
    obtain ⟨rfl, hfaults⟩ := Bool.and_eq_true_iff.1 hok
    obtain ⟨b', hfile', hb⟩ := halong _ _ _ hstart hfile
    cases hrun
    refine ⟨b'.library, b'.events, ?_, hb.library, hb.keys⟩
    rw [hfile']
    simp only
    rw [if_pos (by rw [← hb.faults]; exact hok)]
  · cases hrun

end

end Build

/-! ## Workspaces -/

namespace Workspace

/-- The passes run through all drafts, and the build of the draft that a path stands for
    gives a library. -/
def Gives (w : Workspace) (p : String) (lib : Library) : Prop :=
  ∃ w' ids d events, w.refineAll = (w', .ok ids) ∧ w'.draftAt? p = some d ∧
    Build.run w' .empty d = (lib, events, .ok ())

variable {p : String}

theorem Gives.unique {w : Workspace} {lib lib' : Library} (h : w.Gives p lib)
    (h' : w.Gives p lib') : lib = lib' := by
  obtain ⟨w₁, ids, d, events, hall, hd, hrun⟩ := h
  obtain ⟨w₂, ids', d', events', hall', hd', hrun'⟩ := h'
  cases hall.symm.trans hall'
  cases hd.symm.trans hd'
  cases hrun.symm.trans hrun'
  rfl

/-- **Workspaces that are like each other give libraries that mirror each other**, with models
    of matching drafts. -/
theorem Related.gives {P : Namespace → Namespace → Prop} (hP : Namespace.Likeness P)
    (hmirrors : ∀ {m n : Namespace}, m.Matched P n → m.scope.Mirrors g n.scope) {w v : Workspace}
    (hw : w.AsRead) (hv : v.AsRead) (h : w.Related (Draft.Related P) v) {lib : Library}
    (hlib : w.Gives p lib) : ∃ lib', v.Gives p lib' ∧ lib.Mirrors g lib' ∧ lib'.keys = lib.keys ∧
      ∀ {f m m'}, lib.find? f = some m → lib'.find? f = some m' → ∃ d e lib₁ lib₂, d.Matched P e ∧
        Model.Models lib₁ d m ∧ Model.Models lib₂ e m' := by
  obtain ⟨w', ids, d, events, hall, hd, hrun⟩ := hlib
  obtain ⟨v', hall', hmatched⟩ := h.refineAll hP hw hv hall
  have hrefined := hw.isRefined hall
  have hrefined' := hv.isRefined hall'
  obtain ⟨e, he, hde⟩ := hmatched.draftAt hd
  obtain ⟨lib', events', hrun', hmirror, hkeys⟩ :=
    Build.mirrors_run hmirrors hrefined hrefined' hmatched hde.same
    (by rw [hrefined.file hd]; exact hd) (by rw [hrefined'.file he]; exact he) hrun
  refine ⟨lib', ⟨v', ids, e, events', hall', he, hrun'⟩, hmirror, hkeys, fun {f m m'} hm hm' => ?_⟩
  have hholds := Build.Leaves.holds hrefined (.run .empty hd)
  have hholds' := Build.Leaves.holds hrefined' (.run .empty he)
  rw [hrun] at hholds
  rw [hrun'] at hholds'
  obtain ⟨x, lib₁, hx, hmodels⟩ := hholds f m hm
  obtain ⟨y, lib₂, hy, hmodels'⟩ := hholds' f m' hm'
  obtain ⟨y', hy', hxy⟩ := hmatched.draftAt hx
  cases hy.symm.trans hy'
  exact ⟨x, y, lib₁, lib₂, hxy, hmodels, hmodels'⟩

end Workspace

end MessageSchema
