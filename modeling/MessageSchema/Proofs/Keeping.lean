/-
  What a model keeps of a draft.

  `Model.Keeps d m` says that the entities of `m` are the declarations of `d`, one for
  one, with all their fields, values and components.

  * `kept_field`, `kept_mergeFrom`: a field or a value is left out only with a fault.
-/
import MessageSchema.Proofs.Arising
import MessageSchema.Proofs.Binding
import MessageSchema.Proofs.Building

namespace MessageSchema

open List

/-! ## Declarations and entities -/

namespace Draft

/-- A field of a model has what a field of a draft says, with a default just if one is
    written. -/
structure Field.Kept (f : Field) (result : Model.Field) : Prop where
  name : result.name = f.name
  modifiers : result.modifiers = f.modifiers
  default : result.default.isSome = f.default.isSome
  origin : result.origin = f.origin

/-- A message of a model has what a message of a draft says. -/
structure Message.Kept (q : String) (m : Message) (result : Model.Message) : Prop where
  name : result.name = m.name
  qualified : result.qualified = q
  parent : result.parent.isSome = m.parent.isSome
  fields : Forall₂ Field.Kept m.fields result.fields
  origin : result.origin = m.origin

/-- A value that an enumeration of a model does not inherit, with its number if that
    is written or is a flag. -/
structure EnumValue.Kept (kind : EnumKind) (v : EnumValue) (result : Model.EnumValue) : Prop where
  name : result.name = v.name
  own : result.inherited = false
  number : v.explicit = true ∨ kind = .flags → result.number = v.number
  origin : result.origin = v.origin

/-- An enumeration of a model has what one of a draft says. -/
structure Enumeration.Kept (q : String) (e : Enumeration) (result : Model.Enumeration) : Prop where
  name : result.name = e.name
  qualified : result.qualified = q
  kind : result.kind = e.kind
  parent : result.parent.isSome = e.parent.isSome
  /-- inherited values, then its own -/
  values : ∃ inherited own, result.values = inherited ++ own ∧
    (∀ v ∈ inherited, v.inherited = true) ∧ Forall₂ (EnumValue.Kept e.kind) e.values own
  origin : result.origin = e.origin

/-- A compound of a model has what one of a draft says. -/
structure Compound.Kept (q : String) (c : Compound) (result : Model.Compound) : Prop where
  name : result.name = c.name
  qualified : result.qualified = q
  base : result.base = c.base
  components : result.components = c.components
  origin : result.origin = c.origin

end Draft

namespace Model

/-- An entity has all that a declaration under the qualified name `q` says. -/
inductive Declaration.Kept (q : String) : Declaration → Entity → Prop
  | message {m result} : Draft.Message.Kept q m result → Kept q (.message m) (.message result)
  | enumeration {e result} : Draft.Enumeration.Kept q e result →
      Kept q (.enumeration e) (.enumeration result)
  | compound {c result} : Draft.Compound.Kept q c result → Kept q (.compound c) (.compound result)

/-- What is declared in the namespaces of a draft, under qualified names. -/
def declaredIn (d : Draft) : List (String × Declaration) :=
  (d.arena.mapIdx fun i ns => Index.under (Index.nameOf d.arena i ns)
    (declarationsOf ns.scope)).flatten

/-- The entities of a model are the declarations of a draft, each once, and nothing is
    declared outside the namespaces. -/
structure Keeps (d : Draft) (m : Model) : Prop where
  outside : declarationsOf d.top = []
  entities : Forall₂ (fun x e => x.2.Kept x.1 e) (declaredIn d) m.entities
  nodup : (m.entities.map Entity.qualified).Nodup

theorem Declaration.Kept.qualified {q : String} {x : Declaration} {e : Entity} (h : x.Kept q e) :
    e.qualified = q := by
  cases h with
  | message h => exact h.qualified
  | enumeration h => exact h.qualified
  | compound h => exact h.qualified

/-! ## Fields -/

theorem isSome_eq_of_rel {α β : Type} {R : α → β → Prop} {a : Option α} {b : Option β}
    (h : Option.Rel R a b) : b.isSome = a.isSome := by
  cases h with
  | none => rfl
  | some _ => rfl

namespace Binder

variable {b : Binder} {enums : Table Enumeration}

theorem kept_field {owner : String} {f : Draft.Field} (h : (b.field enums owner f).2 = []) :
    ∃ F, b.field enums owner f = (some F, []) ∧ f.Kept F := by
  obtain ⟨T, default, -, hfield, hdefault⟩ := field_eq h
  refine ⟨_, hfield, rfl, rfl, ?_, rfl⟩
  simpa using (congrArg Option.isSome hdefault).symm

theorem kept_message {q : String} {m : Draft.Message}
    (h : (b.message enums q m).2 = []) : m.Kept q (b.message enums q m).1 := by
  obtain ⟨hparent, hfields⟩ := append_eq_nil_iff.1 h
  exact ⟨rfl, rfl, isSome_eq_of_rel (bound_messageParent hparent),
    forall₂_fields kept_field hfields, rfl⟩

end Binder

/-! ## Values -/

section
variable {kind : EnumKind} {taken used : List String} {previous : Option Int}
  {own : List Draft.EnumValue}

theorem kept_mergeFrom
    (hduplicates : (mergeFrom (kind ≠ .flags) taken used previous own).duplicates = [])
    (hoverflows : (mergeFrom (kind ≠ .flags) taken used previous own).overflows = []) :
    Forall₂ (Draft.EnumValue.Kept kind) own
      (mergeFrom (kind ≠ .flags) taken used previous own).values := by
  induction own generalizing used previous with
  | nil => exact .nil
  | cons v vs ih =>
    have hnumber : v.explicit = true ∨ kind = .flags →
        (if v.explicit || !decide (kind ≠ .flags) then v.number
        else EnumKind.closed.nextNumber previous) =
          v.number := by
      rintro (hexplicit | rfl)
      · rw [hexplicit]; rfl
      · exact if_pos (by simp)
    rw [mergeFrom] at hduplicates hoverflows ⊢
    simp only at hduplicates hoverflows ⊢
    generalize (if v.explicit || !decide (kind ≠ .flags) then v.number
      else EnumKind.closed.nextNumber previous) = n at hduplicates hoverflows hnumber ⊢
    split at hduplicates
    · cases hduplicates
    · next hfree =>
      rw [if_neg hfree] at hoverflows ⊢
      split at hoverflows
      · next hrange =>
        rw [if_pos hrange] at hduplicates ⊢
        exact .cons ⟨rfl, rfl, hnumber, rfl⟩ (ih hduplicates hoverflows)
      · cases hoverflows

end

theorem kept_mergeValues {kind : EnumKind} {inherited values : List EnumValue}
    {own : List Draft.EnumValue} (h : mergeValues (kind ≠ .flags) inherited own = { values }) :
    ∃ above below, values = above ++ below ∧ (∀ v ∈ above, v.inherited = true) ∧
      Forall₂ (Draft.EnumValue.Kept kind) own below := by
  obtain ⟨hvalues, hduplicates, hoverflows⟩ := Merged.mk.inj h
  refine ⟨_, _, hvalues.symm, fun v hv => ?_, kept_mergeFrom hduplicates hoverflows⟩
  obtain ⟨u, -, rfl⟩ := mem_map.1 hv
  rfl

theorem Finishes.kept {b : Binder} {q : String} {e : Draft.Enumeration} {result : Enumeration}
    (h : Finishes b q e result) : e.Kept q result := by
  obtain ⟨inherited, hvalues⟩ := h.values
  exact ⟨h.name, h.qualified, h.kind, isSome_eq_of_rel (Binder.bound_enumParent h.parent),
    kept_mergeValues hvalues, h.origin⟩

/-! ## Models -/

section
variable {lib : Library} {d : Draft} {imports : Table String} (hf : Faultless lib d imports)
include hf

/-- **What a declaration becomes has all that it says.** -/
theorem Becomes.kept {q : String} {x : Declaration} {e : Entity}
    (hx : (Index.ofDraft d).declared.find? q = some x)
    (h : Becomes (entitiesOf lib d imports) q x e) : x.Kept q e := by
  cases h with
  | message hm =>
    obtain ⟨hbuilt, hnil⟩ := Binder.find?_messages hf.messages hx
    cases hbuilt.symm.trans hm
    exact .message (Binder.kept_message hnil)
  | enumeration he =>
    obtain ⟨result, hresult, hfin⟩ := Binder.find?_enumerations hf.enums hx
    cases hresult.symm.trans he
    exact .enumeration hfin.kept
  | compound hc =>
    cases (find?_compoundsOf hx).symm.trans hc
    exact .compound ⟨rfl, rfl, rfl, rfl, rfl⟩

omit hf in
theorem declarationsOf_top (h : outsideFaults d = []) : declarationsOf d.top = [] := by
  unfold outsideFaults at h
  split at h
  · assumption
  · cases h

variable (hd : d.Orderly)
include hd

omit hf in
theorem isWord_of_mem_walk : ∀ v ∈ d.walk, ∀ x ∈ declarationsOf v.site.ns.scope, IsWord x.name :=
  fun v hv _ hx =>
    (hd.arena v.site.ns (mem_of_getElem? (Draft.getElem?_site_of_mem_walk hv))).isWord hx

theorem find?_of_mem_arena {i : Nat} {ns : Draft.Namespace} (hi : d.arena[i]? = some ns)
    {x : Declaration} (hx : x ∈ declarationsOf ns.scope) :
    (Index.ofDraft d).declared.find?
      (QualifiedName.join (some (Index.nameOf d.arena i ns)) x.name) = some x := by
  obtain ⟨v, hv, rfl, rfl⟩ := hd.covered.exists_visit hi
  rw [← Table.mem_entries_iff, entries_indexed (isWord_of_mem_walk hd) hf.index]
  exact mem_indexed.2 ⟨v, hv, hx, rfl⟩

theorem kept_namespaces : Forall₂ (fun x e => x.2.Kept x.1 e) (declaredIn d)
    ((d.arena.mapIdx (namespaceOf d.arena (entitiesOf lib d imports))).flatMap
      Namespace.entities) := by
  rw [declaredIn, flatMap_def, mapIdx_eq_zipIdx_map, mapIdx_eq_zipIdx_map, map_map]
  refine rel_flatten (forall₂_map_left_iff.2 (forall₂_map_right_iff.2
    (forall₂_same.2 fun e he => ?_)))
  obtain ⟨ns, i⟩ := e
  have hi : d.arena[i]? = some ns := mem_zipIdx_iff_getElem?.1 he
  have hfind :=
    fun (x : Declaration) (hx : x ∈ declarationsOf ns.scope) => find?_of_mem_arena hf hd hi hx
  refine forall₂_map_left_iff.2 (forall₂_imp_of_mem (matches_namespaceOf hf hfind).entities ?_)
  exact fun x hx e h => h.kept hf (hfind x hx)

theorem nodup_declaredIn : ((declaredIn d).map Prod.fst).Nodup := by
  have hperm : (declaredIn d).Perm (indexed d) := by
    have hmap := (hd.covered.mapIdx_perm fun i ns =>
      Index.under (Index.nameOf d.arena i ns) (declarationsOf ns.scope)).flatten
    rw [indexed, flatMap_map]
    exact hmap
  exact (hperm.map Prod.fst).nodup_iff.2 (nodup_indexed (isWord_of_mem_walk hd) hf.index)

end

/-- **A model without a fault keeps everything.** -/
theorem keeps_ofDraft {lib : Library} {d : Draft} (hd : d.Orderly) {imports : Table String}
    {m : Model} (h : ofDraft lib d imports = (m, [])) : Keeps d m := by
  obtain ⟨rfl, hf⟩ := ofDraft_eq h
  have hkept := kept_namespaces hf hd
  have hnames := forall₂_map_left_iff.2 (forall₂_map_right_iff.2
    (hkept.imp fun _ _ h => h.qualified.symm))
  rw [forall₂_eq_eq_eq] at hnames
  have hnodup := nodup_declaredIn hf hd
  rw [hnames] at hnodup
  have hentities := entities_eq (m := ⟨d.file, d.stem, _, d.top.children, imports⟩) hnodup
  exact ⟨declarationsOf_top hf.outside, hentities ▸ hkept, hentities ▸ hnodup⟩

end Model

/-! ## Builds -/

namespace Build

variable {d : Draft}

theorem exists_ofDraft_of_run {w : Workspace} {lib lib' : Library} {events : List Event}
    (hnew : lib.contains d.file = false) (h : run w lib d = (lib', events, .ok ())) :
    ∃ lib₀ imports m, Model.ofDraft lib₀ d imports = (m, []) ∧ lib'.find? d.file = some m := by
  have houtcome := outcome_file w w.drafts.length [] d { library := lib }
  rw [run] at h
  generalize file w (w.drafts.length + 1) [] d { library := lib } = r at houtcome h
  cases houtcome with
  | present hhas =>
    rw [hnew] at hhas
    cases hhas
  | again | cycle | unbuilt | faulty => cases h
  | @built b done m _ _ _ hm =>
    simp only [Bool.true_and] at h
    split at h
    · cases h
      exact ⟨b.library, done, m, hm, Table.find?_insert_self _ _ _⟩
    · cases h

/-- **Nothing is lost in silence.**  If a file with attached imports is built, whatever
    is in the library, its model has exactly what the draft declares.  If something is
    missing from a model, the faults that come with it are not empty. -/
theorem run_keeps {d : Draft} (hd : d.Arises) :
    (∀ w lib lib' events, lib.contains d.file = false → run w lib d = (lib', events, .ok ()) →
      ∃ m, lib'.find? d.file = some m ∧ Model.Keeps d m) ∧
    ∀ lib imports, ¬ Model.Keeps d (Model.ofDraft lib d imports).1 →
      (Model.ofDraft lib d imports).2 ≠ [] := by
  refine ⟨fun w lib lib' events hnew h => ?_, fun lib imports hlost hnil => ?_⟩
  · obtain ⟨lib₀, imports, m, hm, hfind⟩ := exists_ofDraft_of_run hnew h
    exact ⟨m, hfind, Model.keeps_ofDraft hd.orderly hm⟩
  · exact hlost (Model.keeps_ofDraft hd.orderly (Prod.ext rfl hnil))

/-- The draft of a text, after all passes. -/
def passed (file text : String) : Option Draft :=
  (Draft.read file text).toOption.map fun d =>
    Pass.multi.foldl (fun d p => (p.run (.empty ".def") d).1) d

theorem arises_passed {file text : String} (h : passed file text = some d) : d.Arises := by
  obtain ⟨raw, hread, rfl⟩ := exists_of_map_toOption h
  exact foldlRecOn Pass.multi _ (.read hread) fun d hd p hp => .run _ hd hp

/-- A message under the name of an enumeration. -/
def twice : Option Draft := passed "/twice.def" "enum Kind \x7b Cat \x7d message Kind \x7b \x7d"

/-- An inherited value, a default that names it, and flags written in place. -/
def zoo : Option Draft := passed "/zoo.def"
  "enum Kind \x7b Cat, Dog = 5 \x7d enum Wild : Kind \x7b Lion \x7d float Spot \x7b x \x7d
   message Cage \x7b optional kind: Wild = Dog; size: options \x7b Big \x7d[] \x7d"

theorem run_keeps_zoo :
    (∃ d lib events m, zoo = some d ∧ run (.empty ".def") .empty d = (lib, events, .ok ()) ∧
      lib.find? d.file = some m ∧ Model.Keeps d m ∧ m.entities.map Model.Entity.qualified =
        ["zoo::Cage", "zoo::Kind", "zoo::Wild", "zoo::Cage_size", "zoo::Spot"]) ∧
    ∃ d, twice = some d ∧ ¬ Model.Keeps d (Model.ofDraft .empty d .empty).1 ∧
      (Model.ofDraft .empty d .empty).2 ≠ [] := by
  constructor
  · have hall : zoo.map (fun d => ((run (.empty ".def") .empty d).2.2.toOption,
        ((run (.empty ".def") .empty d).1.find? d.file).map fun m : Model =>
        m.entities.map Model.Entity.qualified)) =
        some
        (some (), some ["zoo::Cage", "zoo::Kind", "zoo::Wild", "zoo::Cage_size", "zoo::Spot"]) := by
      decide +kernel
    obtain ⟨d, hd, hboth⟩ := Option.map_eq_some_iff.1 hall
    obtain ⟨hend, hentities⟩ := Prod.mk.inj hboth
    rcases hrun : run (.empty ".def") .empty d with ⟨lib, events, _ | ⟨⟩⟩
    · rw [hrun] at hend
      cases hend
    · rw [hrun] at hentities
      obtain ⟨m, hm, hnames⟩ := Option.map_eq_some_iff.1 hentities
      obtain ⟨m', hm', hkeeps⟩ := (run_keeps (arises_passed hd)).1 _ _ lib events rfl hrun
      obtain rfl := Option.some.inj (hm.symm.trans hm')
      exact ⟨d, lib, events, m, hd, hrun, hm, hkeeps, hnames⟩
  · have hall : twice.map (fun d =>
        ((Model.declaredIn d).length, (Model.ofDraft .empty d .empty).1.entities.length)) =
            some (2, 1) := by
      decide +kernel
    obtain ⟨d, hd, hboth⟩ := Option.map_eq_some_iff.1 hall
    obtain ⟨hdeclared, hentities⟩ := Prod.mk.inj hboth
    have hlost : ¬ Model.Keeps d (Model.ofDraft .empty d .empty).1 := by
      intro hkeeps
      have hlength := hkeeps.entities.length_eq
      rw [hdeclared, hentities] at hlength
      cases hlength
    exact ⟨d, hd, hlost, (run_keeps (arises_passed hd)).2 .empty .empty hlost⟩

end Build

end MessageSchema
