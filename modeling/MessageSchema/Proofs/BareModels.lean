/-
  Notes play no part in models.

  Drafts that differ in notes alone have the same declarations with other origins, in
  the same order.  So their models differ in notes alone.
-/
import MessageSchema.Proofs.Erasure
import MessageSchema.Proofs.Mirroring

namespace MessageSchema

open List Draft

/-- A table with its values changed. -/
def Table.map {α β : Type} (g : α → β) (t : Table α) : Table β :=
  ⟨t.entries.map fun e => (e.1, g e.2), by rw [map_map]; exact t.nodup⟩

/-! ## Models without notes -/

namespace Model

def Field.bare (x : Field) : Field := { x with origin := x.origin.bare id }

def Message.bare (m : Message) : Message :=
  { m with fields := m.fields.map Field.bare, origin := m.origin.bare id }

def EnumValue.bare (v : EnumValue) : EnumValue := { v with origin := v.origin.bare id }

def Enumeration.bare (e : Enumeration) : Enumeration :=
  { e with values := e.values.map EnumValue.bare, origin := e.origin.bare id }

def Compound.bare (c : Compound) : Compound := { c with origin := c.origin.bare id }

def Entity.bare : Entity → Entity
  | .message m => .message m.bare
  | .enumeration e => .enumeration e.bare
  | .compound c => .compound c.bare

def Namespace.bare (ns : Namespace) : Namespace :=
  { ns with
    toNotes := .none
    messages := ns.messages.map Message.bare
    enums := ns.enums.map Enumeration.bare
    options := ns.options.map Enumeration.bare
    compounds := ns.compounds.map Compound.bare }

end Model

/-- A model without the documentation and the comments of its parts. -/
def Model.bare (m : Model) : Model := { m with namespaces := m.namespaces.map Model.Namespace.bare }

/-- Models without documentation and comments. -/
def Library.bare (lib : Library) : Library := lib.map Model.bare

/-! ## Declarations -/

namespace Draft

variable (f : Nat → Nat) {m n : Namespace}

theorem FieldType.bare_of_hasInline {t : FieldType} (h : t.hasInline = false) : t.bare f = t := by
  induction t with
  | element e | array e => cases e <;> first | rfl | cases h
  | map key value ih => rw [FieldType.bare, ih h]

theorem Scope.InlineFree.relabel_declarationsOf {s : Scope} (h : s.InlineFree) :
    (Model.declarationsOf s).map (Model.Declaration.relabel (Origin.bare f)) =
      Model.declarationsOf (s.bare f) := by
  have hfields : ∀ m ∈ s.messages, m.fields.map (Field.relabel (Origin.bare f)) =
      m.fields.map (Field.bare f) := by
    intro m hm
    refine map_congr_left fun x hx => ?_
    rw [Field.relabel, Field.bare, FieldType.bare_of_hasInline f (h m hm x hx)]
  have hmessages : s.messages.map (Message.relabel (Origin.bare f)) =
      s.messages.map (Message.bare f) := by
    refine map_congr_left fun m hm => ?_
    rw [Message.relabel, Message.bare, hfields m hm]
  have hmap := congrArg (List.map Model.Declaration.message) hmessages
  simp only [map_map] at hmap
  simp only [Model.declarationsOf, Scope.bare, map_append, map_map, ← hmap]
  rfl

/-- **The passes on namespaces that differ in notes and lines alone.** -/
theorem Namespace.Matched.alike (h : m.Matched (Namespace.Alike f) n) : m.Alike f n := by
  obtain @⟨m, n, g, q, h, -, -⟩ := h
  have hscope := congrArg (fun s : Scope => (s.mapNames g).promoted (some q)) h.scope
  simp only [Scope.mapNames_bare, Scope.promoted_bare] at hscope
  have hrest := congrArg (fun ns : Namespace => { ns with qualified := some q, scope := default }) h
  simp only [Namespace.bare, Namespace.mk.injEq] at hrest
  simp only [Alike, Namespace.bare, hscope, hrest]

theorem Namespace.Matched.mirrors_alike (h : m.Matched (Namespace.Alike f) n) :
    m.scope.Mirrors (Origin.bare f) n.scope := by
  have hscope := (h.alike f).scope
  obtain ⟨-, -, -⟩ := h
  rw [Scope.Mirrors, (Scope.inlineFree_promoted _ _).relabel_declarationsOf,
    (Scope.inlineFree_promoted _ _).relabel_declarationsOf, hscope]

theorem Scope.names_of_bare_eq {s t : Scope} (h : s.bare f = t.bare f) :
    (Model.declarationsOf s).map Model.Declaration.name =
      (Model.declarationsOf t).map Model.Declaration.name := by
  have hbare : ∀ s : Scope, (Model.declarationsOf (s.bare f)).map Model.Declaration.name =
      (Model.declarationsOf s).map Model.Declaration.name := fun s => by
    simp only [Model.declarationsOf, Scope.bare, map_append, map_map]
    rfl
  rw [← hbare s, ← hbare t, h]

end Draft

/-! ## Namespaces and models -/

namespace Model

theorem Entity.bare_eq_relabel : Entity.bare = Entity.relabel (Origin.bare id) := by
  funext e
  cases e <;> rfl

/-- A namespace is made of its entities. -/
theorem Namespace.bare_eq {ns ns' : Namespace}
    (hmessages : ns.messages.length = ns'.messages.length)
    (henums : ns.enums.length = ns'.enums.length)
    (hoptions : ns.options.length = ns'.options.length)
    (hentities : ns.entities.map Entity.bare = ns'.entities.map Entity.bare)
    (hrest : ns' = { ns with
      toNotes :=
  ns'.toNotes
      messages := ns'.messages
      enums := ns'.enums
      options := ns'.options
      compounds := ns'.compounds }) : ns.bare = ns'.bare := by
  simp only [entities, map_append, map_map] at hentities
  obtain ⟨hentities, hcompounds'⟩ := append_inj hentities (by simp [hmessages, henums, hoptions])
  obtain ⟨hentities, hoptions'⟩ := append_inj hentities (by simp [hmessages, henums])
  obtain ⟨hmessages', henums'⟩ := append_inj hentities (by simp [hmessages])
  have hm : ns.messages.map Message.bare = ns'.messages.map Message.bare :=
    map_eq_of_forall₂ ((forall₂_of_map_eq hmessages').imp fun _ _ => Entity.message.inj)
  have he : ns.enums.map Enumeration.bare = ns'.enums.map Enumeration.bare :=
    map_eq_of_forall₂ ((forall₂_of_map_eq henums').imp fun _ _ => Entity.enumeration.inj)
  have ho : ns.options.map Enumeration.bare = ns'.options.map Enumeration.bare :=
    map_eq_of_forall₂ ((forall₂_of_map_eq hoptions').imp fun _ _ => Entity.enumeration.inj)
  have hc : ns.compounds.map Compound.bare = ns'.compounds.map Compound.bare :=
    map_eq_of_forall₂ ((forall₂_of_map_eq hcompounds').imp fun _ _ => Entity.compound.inj)
  rw [hrest]
  simp only [Namespace.bare, hm, he, ho, hc]

namespace Models

variable {lib lib' : Library} {d e : Draft} {m m' : Model} (h : Models lib d m)
  (h' : Models lib' e m')
include h

/-- The entities of a namespace, by what the model owns. -/
theorem bare_entities {ns : Namespace} (hns : ns ∈ m.namespaces) :
    ns.entities.map (some ∘ Entity.bare) =
      (ns.entities.map Entity.qualified).map fun q => (m.own? q).map Entity.bare := by
  rw [map_map]
  refine map_congr_left fun E hE => ?_
  have hown : m.own? E.qualified = some E := h.own?_iff.2 ⟨mem_flatMap.2 ⟨ns, hns, hE⟩, rfl⟩
  simp [hown]

include h'

theorem bare_namespaceAt (hown : ∀ q, (m'.own? q).map Entity.bare = (m.own? q).map Entity.bare)
    {v v' : Visit} (hv : v ∈ d.walk) (hv' : v' ∈ e.walk) (hroute : v.route = v'.route)
    (hns : v.site.ns.Alike id v'.site.ns) :
    (namespaceAt lib d m.imports v).bare = (namespaceAt lib' e m'.imports v').bare := by
  have hscope : v.site.ns.scope.bare id = v'.site.ns.scope.bare id := hns.scope
  obtain ⟨-, hqualified⟩ := Visit.site_of_route hroute
  have hmatches := matches_namespaceAt h.faultless h.finished hv
  have hmatches' := matches_namespaceAt h'.faultless h'.finished hv'
  refine Namespace.bare_eq ?_ ?_ ?_ ?_ ?_
  · rw [← hmatches.messages.length_eq, ← hmatches'.messages.length_eq]
    simpa [Scope.bare] using congrArg (·.messages.length) hscope
  · rw [← hmatches.enums.length_eq, ← hmatches'.enums.length_eq]
    simpa [Scope.bare] using congrArg (·.enums.length) hscope
  · rw [← hmatches.options.length_eq, ← hmatches'.options.length_eq]
    simpa [Scope.bare] using congrArg (·.options.length) hscope
  · have hentities : (namespaceAt lib d m.imports v).entities.map Entity.qualified =
        (namespaceAt lib' e m'.imports v').entities.map Entity.qualified := by
      have hnames := Scope.names_of_bare_eq id hscope
      have hjoin := congrArg (List.map (QualifiedName.join (some v.site.qualified))) hnames
      rw [map_qualified_entities h.faultless h.finished hv,
        map_qualified_entities h'.faultless h'.finished hv', ← hqualified]
      simpa only [Index.under, map_map, Function.comp_def] using hjoin
    have hsome := h.bare_entities (h.mem_namespaces.2 ⟨v, hv, rfl⟩)
    have hsome' := h'.bare_entities (h'.mem_namespaces.2 ⟨v', hv', rfl⟩)
    rw [hentities, ← funext hown, ← hsome', ← map_map, ← map_map] at hsome
    exact map_injective_iff.2 (Option.some_injective _) hsome
  · have hname := nameOf_eq h.finished hv
    have hname' := nameOf_eq h'.finished hv'
    have hchildren : v.site.ns.scope.children = v'.site.ns.scope.children :=
      congrArg (·.children) hscope
    obtain ⟨-, htitle, hparent, -, hfile, hline, -⟩ := Draft.Namespace.mk.inj hns
    simp only [id_eq] at hline
    simp only [namespaceAt, namespaceOf, hname, hname', hqualified, hchildren, htitle,
      hparent, hfile, hline]

/-- **The models of drafts that differ in notes alone** differ in notes alone. -/
theorem bare_eq (hmatched : d.Matched (Namespace.Alike id) e)
    (hmirrors : m.Mirrors (Origin.bare id) m') : m.bare = m'.bare := by
  have hown : ∀ q, (m'.own? q).map Entity.bare = (m.own? q).map Entity.bare := by
    rw [Entity.bare_eq_relabel]
    exact hmirrors.own
  have hnamespaces : m.namespaces.map Namespace.bare = m'.namespaces.map Namespace.bare := by
    refine map_eq_of_forall₂ (forall₂_of_getElem? ?_ fun i ns hns => ?_)
    · rw [h.length_namespaces, h'.length_namespaces, hmatched.arena.length_eq]
    · rw [h.namespaces_eq, getElem?_mapIdx] at hns
      obtain ⟨a, ha, rfl⟩ := Option.map_eq_some_iff.1 hns
      obtain ⟨v, hv, rfl, rfl⟩ := h.finished.covered.exists_visit ha
      obtain ⟨v', hv', hroute, hns⟩ := exists_right_of_mem (hmatched.same.visits hmatched.arena) hv
      refine ⟨_, ?_, h.bare_namespaceAt h' hown hv hv' hroute (hns.alike id)⟩
      rw [(Visit.site_of_route hroute).1]
      exact h'.getElem?_namespaces hv'
  have hstem : m.stem = m'.stem :=
    ((congrArg Model.stem (ofDraft_eq h.built).1).trans hmatched.same.stem.symm).trans
      (congrArg Model.stem (ofDraft_eq h'.built).1).symm
  have hchildren : d.top.children = e.top.children := hmatched.same.top.children
  have hroots : m.roots = m'.roots :=
    ((congrArg Model.roots (ofDraft_eq h.built).1).trans hchildren).trans
      (congrArg Model.roots (ofDraft_eq h'.built).1).symm
  rw [Model.bare, Model.bare, hmirrors.file, hstem, hnamespaces, hroots, hmirrors.imports]

end Models

end Model

/-! ## Libraries -/

/-- Tables with the same keys, in order, and the same values under each. -/
theorem Table.map_eq_of_keys {α β : Type} {g : α → β} {t u : Table α} (hkeys : t.keys = u.keys)
    (h : ∀ k, (t.find? k).map g = (u.find? k).map g) : t.map g = u.map g := by
  have hfound : ∀ s : Table α, s.entries.map (fun e => (e.1, some (g e.2))) =
      s.keys.map fun k => (k, (s.find? k).map g) := by
    intro s
    rw [Table.keys, map_map]
    refine map_congr_left fun e he => ?_
    rw [Function.comp_apply, (Table.mem_entries_iff _ _ _).1 he, Option.map_some]
  have hsome := hfound t
  simp only [hkeys, h, ← hfound u] at hsome
  refine Table.ext_entries (map_eq_of_forall₂ ((forall₂_of_map_eq hsome).imp fun e e' he => ?_))
  obtain ⟨hkey, hvalue⟩ := Prod.mk.inj he
  exact Prod.ext hkey (Option.some.inj hvalue)

namespace Workspace

/-- **Notes play no part in what is built.** -/
theorem gives_of_bare_eq {w v : Workspace} (hw : w.AsRead) (hv : v.AsRead) (h : w.bare = v.bare)
    {p : String} {lib : Library} (hlib : w.Gives p lib) :
    ∃ lib', v.Gives p lib' ∧ lib.bare = lib'.bare := by
  obtain ⟨lib', hlib', hmirrors, hkeys, hmodels⟩ :=
    (related_of_bare_eq h).gives (Namespace.likeness_alike id)
    (Namespace.Matched.mirrors_alike id) hw hv hlib
  refine ⟨lib', hlib', Table.map_eq_of_keys hkeys.symm fun f => ?_⟩
  obtain ⟨hm, hm'⟩ | ⟨m, m', hm, hm', hmodel⟩ := rel_cases (hmirrors f)
  · rw [hm, hm', Option.map_none]
  · obtain ⟨d, e, lib₁, lib₂, hmatched, hd, he⟩ := hmodels hm hm'
    rw [hm, hm', Option.map_some, Option.map_some, hd.bare_eq he hmatched hmodel]

end Workspace

end MessageSchema
