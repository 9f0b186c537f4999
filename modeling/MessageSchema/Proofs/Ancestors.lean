/-
  Parents of declarations, within a file and across files.

  `d.Passed` says that `d` was read from a text and went through all passes;
  `lib.IsParent f` relates the entities that a file can refer to to their parents.
-/
import MessageSchema.Proofs.InheritanceLoops
import MessageSchema.Proofs.Numbering
import MessageSchema.Proofs.References

namespace MessageSchema

open List QualifiedName Model.Binder Draft Table Workspace

namespace Draft

/-! ## Names that stay unresolved -/

theorem children_wrap_of_name {raw : Draft} (h : ∀ ns ∈ raw.arena, ns.name ≠ "") {i : Nat}
    {ns : Namespace} (hns : raw.wrap.arena[i]? = some ns) (hname : ns.name = "") :
    raw.wrap.top.children = [i] := by
  unfold wrap at hns ⊢
  split at hns
  · exact absurd hname (h ns (mem_of_getElem? hns))
  · next hwrapped =>
    rw [if_neg hwrapped]
    by_cases hi : i < (adopt raw.arena.length raw.top.children raw.arena).length
    · rw [getElem?_append_left hi] at hns
      have hmem := mem_map_of_mem (f := fun ns : Namespace => ns.name) (mem_of_getElem? hns)
      rw [map_adopt fun _ _ => rfl] at hmem
      obtain ⟨ns', hns', heq⟩ := mem_map.1 hmem
      exact absurd (heq.trans hname) (h ns' hns')
    · have hlt := (List.getElem?_eq_some_iff.1 hns).1
      rw [length_append, length_singleton] at hlt
      rw [length_adopt] at hi hlt
      obtain rfl : i = raw.arena.length := by omega
      rfl

theorem name_eq_empty_of_join {outer : Option String} {name : String}
    (h : join outer name = "") : name = "" := by
  cases outer with
  | none => exact h
  | some o =>
    by_cases ho : o = ""
    · simpa [join, ho] using h
    · have hlist := congrArg String.toList h
      rw [toList_join_some ho] at hlist
      simp at hlist

section
variable {raw : Draft} (hnames : ∀ ns ∈ raw.arena, ns.name ≠ "") {u u' : Visit}
  (hu : u ∈ raw.wrap.useColons.walk) (hu' : u' ∈ raw.wrap.useColons.walk)
include hnames hu hu'

/-- **What a file declares is found under its qualified name**, from everywhere in it. -/
theorem isSome_lookup (imports : List (String × Draft)) {n : String}
    (hn : n ∈ u'.site.ns.scope.declared) :
    ((raw.wrap.useColons.surroundings imports).lookup (u.enclosing.map Site.region)
      (join (some u'.site.qualified) n)).isSome = true := by
  rw [Surroundings.lookup]
  split
  · have hmem : join (some u'.site.qualified) n ∈
        (raw.wrap.useColons.surroundings imports).own.entities :=
      mem_entities_of_visit hu' (mem_map_of_mem hn)
    have hfind : ((u.enclosing.map Site.region).map (fun r => join r.qualified
        (join (some u'.site.qualified) n)) ++
          [join (some u'.site.qualified) n]).find?
        (raw.wrap.useColons.surroundings imports).own.entities.contains |>.isSome := by
      rw [find?_isSome]
      exact ⟨_, by simp, contains_iff_mem.2 hmem⟩
    simp only [Surroundings.lookupQualified, Option.orElse_eq_orElse, Option.orElse_eq_or,
      Option.isSome_or, hfind, Bool.true_or, Bool.or_true]
  · next hplain =>
    -- the namespace has no name: it is the outermost one
    have hempty : u'.site.qualified = "" := by
      by_contra hne
      exact hplain (isQualified_join hne n)
    have houter := congrArg Site.qualified (around_of_mem_visitsFrom hu').1
    have hname : u'.site.ns.name = "" := name_eq_empty_of_join (houter.symm.trans hempty)
    have hget := getElem?_site_of_mem_walk hu'
    have hroot : raw.wrap.useColons.top.children = [u'.site.index] := by
      rw [useColons, getElem?_map] at hget
      obtain ⟨ns, hns, heq⟩ := Option.map_eq_some_iff.1 hget
      exact children_wrap_of_name hnames hns (by rw [← hname, ← heq])
    obtain ⟨ns, hns, hmem⟩ := exists_root_of_mem_walk hroot hu
    cases hget.symm.trans hns
    have hfind : ((u.enclosing.map Site.region).findSome? fun r => r.find?
        (join (some u'.site.qualified) n)).isSome = true := by
      rw [findSome?_isSome_iff]
      refine ⟨_, mem_map_of_mem hmem, ?_⟩
      rw [hempty, show join (some "") n = n from rfl, Region.find?, if_pos]
      · rfl
      · exact contains_iff_mem.2 hn
    simp [Surroundings.lookupPlain, hfind]

end

theorem Surroundings.isSome_lookup_of_resolve {s : Surroundings} {enclosing : List Region}
    {n : TypeName} (h : (s.lookup enclosing (s.resolve enclosing n).text).isSome = true) :
    (s.resolve enclosing n).resolved = true := by
  unfold resolve at h ⊢
  split
  · next hn => exact hn
  · next hn =>
    simp only [hn] at h
    split
    · rfl
    · next hnone =>
      rw [hnone] at h
      simp [hnone] at h

section
variable {imports : List (String × Draft)} {raw d : Draft} (h : Refined imports raw d)
include h

variable {v : Visit} {m : Message} {p : TypeName}

theorem Refined.exists_parent (hv : v ∈ d.walk) (hm : m ∈ v.site.ns.scope.messages)
    (hp : m.parent = some p) :
    ∃ u ∈ raw.wrap.useColons.walk, ∃ n, p =
      (raw.wrap.useColons.surroundings imports).resolve (u.enclosing.map Site.region) n := by
  obtain ⟨u, hu, -, s, hs, hns⟩ := h.before hv
  obtain ⟨new, -, rfl⟩ := Scope.promote_eq hs
  rw [hns] at hm
  obtain ⟨m', hm', rfl⟩ := mem_map.1 hm
  obtain ⟨m', -, rfl⟩ := mem_map.1 hm'
  obtain ⟨n, -, rfl⟩ := Option.map_eq_some_iff.1 hp
  exact ⟨u, hu, n, rfl⟩

/-- **The names of declarations of the same file are resolved** where they stand as the
    parents of messages. -/
theorem Refined.resolved_of_declares (hnames : ∀ ns ∈ raw.arena, ns.name ≠ "") (hv : v ∈ d.walk)
    (hm : m ∈ v.site.ns.scope.messages) (hp : m.parent = some p) (hdeclares : d.Declares p.text) :
    p.resolved = true := by
  obtain ⟨u, hu, n, rfl⟩ := h.exists_parent hv hm hp
  obtain ⟨x, hx⟩ := hdeclares
  obtain ⟨v', hv', hx, hq⟩ := Model.mem_declarations.1 hx
  obtain ⟨u', hu', hroute, s, hs, hns⟩ := h.before hv'
  obtain ⟨-, hqualified⟩ := Visit.site_of_route hroute
  have hdeclared : x.name ∈ u'.site.ns.scope.declared := by
    rw [hns] at hx
    have hmem := (Scope.mem_names_promote hs).1 (mem_map_of_mem hx)
    rwa [Visit.resolved, Scope.declared_mapNames] at hmem
  apply Surroundings.isSome_lookup_of_resolve
  rw [← hq, ← hqualified]
  exact isSome_lookup hnames hu hu' imports hdeclared

end

/-! ## Drafts that went through the passes -/

/-- Passes run through on a draft one after the other, each in some workspace. -/
inductive Through : List Pass → Draft → Draft → Prop
  | nil {d : Draft} : Through [] d d
  | cons {p : Pass} {ps : List Pass} {w : Workspace} {d d' d'' : Draft} :
      p.run w d = (d', none) → Through ps d' d'' → Through (p :: ps) d d''

/-- A draft that was read from a text, and then went through all passes: those for a
    file by itself, or those for a file among others. -/
def Passed (d : Draft) : Prop :=
  ∃ file text raw ps id w w', read file text = .ok raw ∧ (ps = Pass.single ∨ ps = Pass.multi) ∧
    draft? w id = some raw ∧ refine id ps w = (w', none) ∧ w'.draft? id = some d

variable {d : Draft}

theorem through_refine {id : DraftId} {ps : List Pass} {w w' : Workspace}
    (hd : w.draft? id = some d) (h : refine id ps w = (w', none)) :
    ∃ d', w'.draft? id = some d' ∧ Through ps d d' := by
  induction ps generalizing w d with
  | nil =>
    cases h
    exact ⟨d, hd, .nil⟩
  | cons p ps ih =>
    obtain ⟨d', hrun, hrest⟩ := (refine_cons_eq_none_iff hd).1 h
    obtain ⟨d'', hd'', hthrough⟩ := ih (draft?_put_self hd d' _) hrest
    exact ⟨d'', hd'', .cons hrun hthrough⟩

theorem Through.refined {raw : Draft} (hraw : raw.AsRead) {a : Table DraftId}
    (h : Through [.useColons, .resolve, .promote] { raw.wrap with attached := a } d) :
    ∃ imports, Refined imports raw d.detach := by
  obtain _ | ⟨hcolons, h⟩ := h
  cases hcolons
  obtain _ | @⟨_, _, w, _, d₂, _, hresolve, h⟩ := h
  obtain _ | ⟨hpromote, h⟩ := h
  obtain _ | _ := h
  obtain ⟨imports, e, he, rfl⟩ : ∃ imports e, raw.wrap.useColons.resolve imports = .ok e ∧
      d₂ = { e with attached := a } := by
    refine ⟨w.attachedTo { raw.wrap.useColons with attached := a }, ?_⟩
    have hattach := resolve_attach (w.attachedTo { raw.wrap.useColons with attached := a })
      raw.wrap.useColons a
    simp only [Pass.resolve] at hresolve
    rw [show useColons { raw.wrap with attached := a } = { raw.wrap.useColons with attached := a }
      from rfl, hattach] at hresolve
    cases he :
        raw.wrap.useColons.resolve (w.attachedTo { raw.wrap.useColons with attached := a }) with
    | error fault => simp [he, Except.map] at hresolve
    | ok e =>
      simp only [he, Except.map, Prod.mk.injEq, and_true] at hresolve
      exact ⟨e, rfl, hresolve.symm⟩
  obtain ⟨d', hd', rfl⟩ := run_promote_iff.1 hpromote
  have hrefined : Refined imports raw d' := Refines.refined hraw ⟨e, he, hd'⟩
  refine ⟨imports, ?_⟩
  rwa [show detach { d' with attached := a } = d'.detach from rfl,
    detach_eq_self (hrefined.attached.trans hraw.attached)]

theorem Passed.refined (h : d.Passed) : ∃ file text raw imports,
    read file text = .ok raw ∧ Refined imports raw d.detach := by
  obtain ⟨file, text, raw, ps, id, w, w', hread, hps, hraw, hrefine, hd⟩ := h
  obtain ⟨hasRead, -⟩ := read_asRead hread
  obtain ⟨d', hd', hthrough⟩ := through_refine hraw hrefine
  cases hd.symm.trans hd'
  obtain ⟨a, hrest⟩ : ∃ a, Through [.useColons, .resolve, .promote]
      { raw.wrap with attached := a } d := by
    rcases hps with rfl | rfl
    · obtain _ | ⟨hwrap, hthrough⟩ := hthrough
      cases hwrap
      exact ⟨_, hthrough⟩
    · obtain _ | ⟨hwrap, hthrough⟩ := hthrough
      cases hwrap
      obtain _ | ⟨hattach, hthrough⟩ := hthrough
      rw [← (Prod.mk.inj hattach).1] at hthrough
      exact ⟨_, hthrough⟩
  obtain ⟨imports, hrefined⟩ := hrest.refined hasRead
  exact ⟨file, text, raw, imports, hread, hrefined⟩

end Draft

namespace Model

variable {lib : Library} {e : Entity}

/-- **In a file that went through the passes**, names of its own messages are resolved
    where they stand as parents. -/
theorem resolves_of_refined {d raw : Draft} {attached : List (String × Draft)}
    (hread : ∃ file text, read file text = .ok raw) (h : Refined attached raw d.detach)
    (imports : Table String) : (binderOf lib d imports).Resolves := by
  obtain ⟨file, text, hread⟩ := hread
  obtain ⟨hasRead, -⟩ := read_asRead hread
  have hfinished := h.finished hasRead
  intro q m p hq hp hcontains
  obtain ⟨v, hv, hm, -⟩ := exists_visit_of_find?_declared (d := d.detach) hq
  have hm : m ∈ v.site.ns.scope.messages := by
    rcases mem_declarationsOf.1 hm with ⟨m', hm', heq⟩ | ⟨_, -, heq⟩ | ⟨_, -, heq⟩ | ⟨_, -, heq⟩
    · cases heq
      exact hm'
    all_goals cases heq
  obtain ⟨x, hx⟩ := (contains_iff _ _).1 hcontains
  obtain ⟨v', hv', hx', hq'⟩ := exists_visit_of_find?_declared (d := d.detach) hx
  rw [show Index.homeOf d.detach.arena v'.site =
    v'.site.qualified from nameOf_eq hfinished hv'] at hq'
  refine h.resolved_of_declares (fun ns hns => ((writtenIn_of_read hread).2 ns hns).1) hv hm hp ?_
  exact ⟨x, mem_declarations.2 ⟨v', hv', hx', hq'⟩⟩

/-! ## Parents of entities -/

def Entity.parent? : Entity → Option TypeRef
  | message m => m.parent
  | enumeration e => e.parent
  | compound _ => none

/-- The kind that the parent of an entity is of. -/
def Entity.parentKind : Entity → EntityKind
  | message _ => .message
  | enumeration _ => .enumeration
  | compound _ => .compound

theorem Entity.parentKind_eq (h : e.kind = .message ∨ e.kind = .enumeration) :
    e.parentKind = e.kind := by
  cases e with
  | message m => rfl
  | compound c => rfl
  | enumeration x =>
    rcases h with h | h
    · simp only [kind] at h
      split at h <;> cases h
    · exact h.symm

theorem Models.exists_parent {d : Draft} {m : Model} (h : Models lib d m) {q : String}
    (he : m.own? q = some e) {ref : TypeRef} (href : e.parent? = some ref) :
    ref.kind = e.parentKind ∧ (ref.kind = .message ∨ ref.kind = .enumeration) ∧ ∃ x n,
      (Index.ofDraft d).declared.find? q = some x ∧ x.parent? ref.kind = some n ∧
      (binderOf lib d m.imports).Puts n ref := by
  obtain ⟨-, -, -, x, -, -, hx, hbecomes⟩ := h.becomes_of_own? he
  cases hbecomes with
  | @message y result hresult =>
    obtain ⟨hbuilt, hnil⟩ := Binder.find?_messages h.faultless.messages hx
    cases hbuilt.symm.trans hresult
    obtain ⟨hparent, -⟩ := append_eq_nil_iff.1 hnil
    have hrel := Binder.bound_messageParent hparent
    rw [show ((binderOf lib d m.imports).messageParent q y).1 = some ref from href] at hrel
    obtain ⟨n, hn, hputs, hkind⟩ := exists_of_rel_some hrel
    exact ⟨hkind, .inl hkind, _, n, hx, by rw [hkind, Declaration.parent?, if_pos rfl, hn], hputs⟩
  | @enumeration y result hresult =>
    obtain ⟨result', hbuilt, hfin⟩ := Binder.find?_enumerations h.faultless.enums hx
    obtain rfl := Option.some.inj (hbuilt.symm.trans hresult)
    have hrel := Binder.bound_enumParent hfin.parent
    rw [show result'.parent = some ref from href] at hrel
    obtain ⟨n, hn, hputs, hkind⟩ := exists_of_rel_some hrel
    exact ⟨hkind, .inr hkind, _, n, hx, by rw [hkind, Declaration.parent?, if_pos rfl, hn], hputs⟩
  | compound => cases href

end Model

/-- An entity is the parent of another one of those that a file can refer to. -/
def Library.IsParent (lib : Library) (f : String) (parent child : Model.Entity) : Prop :=
  ∃ m ∈ lib.reachable f, child ∈ m.entities ∧
    ∃ ref, child.parent? = some ref ∧ lib.resolve? f ref = some parent

namespace System

variable {ext : String} {source : String → Option String} {final : String → Option Draft}
  {lib : Library} (h : System ext source final lib)
include h

theorem not_loop {f : String} {m : Model} (hm : lib.find? f = some m) :
    ∃ d, Model.Models lib d m ∧ ∀ kind, kind = .message ∨ kind = .enumeration →
      ∀ c, ¬ Loop (Model.Inherits (Model.Index.ofDraft d).declared kind) c := by
  obtain ⟨raw, d, -, hset, hmodels, -⟩ := h.settles hm
  refine ⟨d, hmodels, fun kind hkind c => ?_⟩
  have hread : ∃ file text, read file text = .ok raw := by
    obtain ⟨text, -, hread⟩ := readFrom_eq_some_iff.1 hset.read
    exact ⟨f, text, hread⟩
  have hrefined : Refined (raw.linked ext final) raw d.detach := by
    rw [detach_eq_self (hset.refined.attached.trans hset.asRead.attached)]
    exact hset.refined
  have hresolves : (Model.binderOf lib d m.imports).Resolves :=
    Model.resolves_of_refined hread hrefined m.imports
  obtain ⟨enums, messages, hcycles, henums, hmessages⟩ := Model.reports_ofDraft hresolves
  rw [hmodels.built] at hcycles
  obtain ⟨rfl, rfl⟩ := append_eq_nil_iff.1 hcycles.symm
  rcases hkind with rfl | rfl
  · exact hmessages.not_loop
  · exact henums.not_loop

theorem exists_rank : ∃ rank : String → Nat, ∀ {f m}, lib.find? f = some m →
    ∀ m' ∈ importedModels lib m.imports, rank m'.file < rank f := by
  obtain ⟨rank, hrank⟩ := h.ranked
  have hstep : ∀ {f g}, lib.Imports f g → rank g < rank f := by
    rintro f g ⟨m, hm, hg⟩
    obtain ⟨raw, d, hd, -, -, himports⟩ := h.settles hm
    exact hrank hd g (himports ▸ hg)
  have hrun : ∀ {f g}, lib.Reaches f g → rank g ≤ rank f := by
    intro f g hfg
    induction hfg with
    | refl => exact Nat.le_refl _
    | tail _ himports ih => exact (hstep himports).le.trans ih
  refine ⟨rank, fun {f m} hm m' hm' => ?_⟩
  obtain ⟨k, hk, hfind⟩ := mem_filterMap.1 hm'
  obtain ⟨g, hg, hk⟩ := mem_flatMap.1 (mem_eraseDups.1 hk)
  rw [h.file_eq hfind]
  exact (hrun (Library.reaches_of_mem_reachableFiles hk).1).trans_lt (hstep ⟨m, hm, hg⟩)

section
variable {f : String} {root : Model} (hroot : lib.find? f = some root)
include hroot

variable {m : Model} {q : String} {e : Model.Entity} {ref : TypeRef}

theorem mem_reachable_trans {m' : Model} (hm : m ∈ lib.reachable f)
    (hm' : m' ∈ lib.reachable m.file) : m' ∈ lib.reachable f := by
  obtain ⟨hfm, -⟩ := h.mem_reachable hm
  obtain ⟨hmm', hfind⟩ := h.mem_reachable hm'
  exact (Library.mem_reachable_iff h.closed (contains_of_find? hroot)).2
    ⟨m'.file, hfm.trans hmm', hfind⟩

/-- **The parent of an entity** is declared in the same file, or in one below. -/
theorem parent_cases (hm : m ∈ lib.reachable f) {d : Draft} (hd : Model.Models lib d m)
    {p : Model.Entity} (he : m.own? q = some e) (href : e.parent? = some ref)
    (hp : lib.resolve? f ref = some p) : p.kind = ref.kind ∧
      ((m.own? ref.name = some p ∧
        Model.Inherits (Model.Index.ofDraft d).declared ref.kind q ref.name) ∨
        ((Model.Index.ofDraft d).declared.find? ref.name = none ∧
          (Model.binderOf lib d m.imports).importedEntity? ref.name = some p ∧
          ∃ m' ∈ importedModels lib m.imports, m' ∈ lib.reachable f ∧
            m'.own? ref.name = some p)) := by
  rw [Library.resolve?, Option.filter_eq_some_iff] at hp
  obtain ⟨hlookup, hkind⟩ := hp
  obtain ⟨m₁, hm₁, hp⟩ := (h.lookup?_iff hroot).1 hlookup
  refine ⟨by simpa using hkind, ?_⟩
  obtain ⟨-, -, x, n, hx, hn, hputs⟩ := hd.exists_parent he href
  obtain ⟨-, hname, ⟨y, hy, -⟩ | ⟨hnone, e', he', -⟩⟩ := hputs.cases
  · obtain ⟨e', he', -⟩ := hd.own?_of_declared hy
    obtain rfl := h.eq_of_own? hroot hm hm₁ (hname ▸ he') hp
    exact .inl ⟨hp, hputs.inherits hx hn (contains_of_find? (hname ▸ hy))⟩
  · rw [← hname] at hnone he'
    obtain ⟨m₂, hm₂, hown⟩ := exists_of_findSome?_eq_some he'
    have hreach : m₂ ∈ lib.reachable f :=
      h.mem_reachable_trans hroot hm (h.mem_reachable_of_imported (h.mem_reachable hm).2 hm₂)
    obtain rfl := h.eq_of_own? hroot hreach hm₁ hown hp
    cases hown.symm.trans hp
    exact .inr ⟨hnone, he', m₂, hm₂, hreach, hp⟩

theorem exists_parent_of_mem (hm : m ∈ lib.reachable f) (he : e ∈ m.entities)
    (href : e.parent? = some ref) :
    ref.kind = e.parentKind ∧ ∃ m' ∈ lib.reachable m.file, ∃ p ∈ m'.entities, p.kind =
      ref.kind ∧ p.qualified =
      ref.name ∧ lib.resolve? f ref = some p := by
  obtain ⟨-, hfind⟩ := h.mem_reachable hm
  obtain ⟨d, hd⟩ := h.models hfind
  obtain ⟨q, hown⟩ := (mem_values_iff _ _).1 he
  obtain ⟨hrefkind, -, -, n, -, -, hputs⟩ := hd.exists_parent hown href
  obtain ⟨p, hp, hpname, hpkind⟩ := h.resolves_of_puts hfind hd hputs
  -- it is found from the file above as well
  obtain ⟨m', hm', hpown⟩ := (h.lookup?_iff hfind).1 (Option.filter_eq_some_iff.1 hp).1
  obtain ⟨hresolve, -⟩ := h.resolve?_of_own? hroot (h.mem_reachable_trans hroot hm hm') hpown hpkind
  exact ⟨hrefkind, m', hm', p, (mem_values_iff _ _).2 ⟨_, hpown⟩, hpkind, hpname, hresolve⟩

theorem acc_of_own? (hm : m ∈ lib.reachable f)
    (hbelow : ∀ m' ∈ importedModels lib m.imports, m' ∈ lib.reachable f →
      ∀ q e, m'.own? q = some e → Acc (lib.IsParent f) e)
    (he : m.own? q = some e) : Acc (lib.IsParent f) e := by
  obtain ⟨d, hd, hloop⟩ := h.not_loop (h.mem_reachable hm).2
  by_cases hkind : e.parentKind = .message ∨ e.parentKind = .enumeration
  · generalize hk : e.parentKind = kind at hkind
    have hacc : Acc (fun y x => Model.Inherits (Model.Index.ofDraft d).declared kind x y) q :=
      acc_of_not_loop (fun _ _ => Model.Inherits.mem_keys) (hloop kind hkind) q
    induction hacc generalizing e with
    | intro q _ ih =>
      refine .intro e ?_
      rintro p ⟨-, -, -, ref, href, hp⟩
      obtain ⟨hrefkind, -⟩ := hd.exists_parent he href
      obtain ⟨hpkind, ⟨hown, hinherits⟩ | ⟨-, -, m', hm', hreach, hown⟩⟩ :=
        h.parent_cases hroot hm hd he href hp
      · rw [hrefkind, hk] at hinherits hpkind
        refine ih ref.name hinherits hown ?_
        rw [Model.Entity.parentKind_eq (hpkind ▸ hkind), hpkind]
      · exact hbelow m' hm' hreach _ p hown
  · refine .intro e ?_
    rintro p ⟨-, -, -, ref, href, -⟩
    obtain ⟨hrefkind, hrefkind', -⟩ := hd.exists_parent he href
    exact absurd (hrefkind ▸ hrefkind') hkind

/-- **Every chain of parents ends.** -/
theorem wellFounded_isParent : WellFounded (lib.IsParent f) := by
  obtain ⟨rank, hrank⟩ := h.exists_rank
  have hfile : ∀ n, ∀ m ∈ lib.reachable f, rank m.file = n → ∀ q e, m.own? q = some e →
      Acc (lib.IsParent f) e := by
    intro n
    induction n using Nat.strongRecOn with
    | ind n ih =>
      intro m hm hn q e he
      refine h.acc_of_own? hroot hm (fun m' hm' hreach => ?_) he
      exact ih _ (hn ▸ hrank (h.mem_reachable hm).2 m' hm') m' hreach rfl
  refine ⟨fun e => .intro e ?_⟩
  rintro p ⟨-, -, -, ref, -, hp⟩
  rw [Library.resolve?, Option.filter_eq_some_iff] at hp
  obtain ⟨m, hm, hown⟩ := (h.lookup?_iff hroot).1 hp.1
  exact hfile _ m hm rfl ref.name p hown

end

end System

/-! ## Files and compilations -/

namespace Model

/-- **Loops of parents are reported, each exactly once.**  The faults of a file that went
    through the passes show the loops of its enumerations and of its messages, whatever
    it imports, and no others.  So in a compilation every chain of parents ends, through
    however many files it leads. -/
theorem reports_loops_once :
    (∀ d : Draft, d.Passed → ∀ lib imports, ∃ enums messages,
      inheritanceCycles (ofDraft lib d imports).2 = enums ++ messages ∧
        Reports (Inherits (Index.ofDraft d).declared .enumeration) enums ∧
        Reports (Inherits (Index.ofDraft d).declared .message) messages) ∧
    ∀ fs ext path source lib, Compilation.Compiles fs ext path source lib →
      ∀ f ∈ lib.reachableFiles (Path.absolute path), WellFounded (lib.IsParent f) := by
  constructor
  · intro d hd lib imports
    obtain ⟨file, text, raw, attached, hread, hrefined⟩ := hd.refined
    exact reports_ofDraft (resolves_of_refined ⟨file, text, hread⟩ hrefined imports)
  · intro fs ext path source lib hcompiles f hf
    obtain ⟨final, hsys, -⟩ := hcompiles.system
    obtain ⟨root, hroot⟩ := (contains_iff _ _).1 (Library.reaches_of_mem_reachableFiles hf).2
    exact hsys.wellFounded_isParent hroot

/-- The draft of a text after the passes for a file by itself. -/
def alone (file text : String) : Option Draft :=
  (readFrom (fun _ => some text) file).bind fun raw =>
    match refine 0 Pass.single ((empty ".def").insert file raw) with
    | (w, none) => w.draft? 0
    | (_, some _) => none

theorem passed_alone {file text : String} {d : Draft} (h : alone file text = some d) :
    d.Passed := by
  obtain ⟨raw, hraw, h⟩ := Option.bind_eq_some_iff.1 h
  obtain ⟨text', -, hread⟩ := readFrom_eq_some_iff.1 hraw
  split at h
  · next w hrefine => exact ⟨file, text', raw, Pass.single, 0, _, w, hread, .inl rfl,
      rfl, hrefine, h⟩
  · cases h

/-- Two enumerations that inherit from each other, one that leads to them, and a message
    that is its own parent. -/
def entangled : Option Draft := alone "/e.def"
  "enum A : B \x7b \x7d enum T : A \x7b \x7d enum B : A \x7b \x7d message M : M \x7b \x7d"

theorem reports_loops_entangled :
    (∃ d enums messages, entangled = some d ∧ d.Passed ∧
      [["e::A", "e::B", "e::A"], ["e::M", "e::M"]] = enums ++ messages ∧
      Reports (Inherits (Index.ofDraft d).declared .enumeration) enums ∧
      Reports (Inherits (Index.ofDraft d).declared .message) messages) ∧
    ∃ lib, Compilation.Compiles Compilation.shop ".def" "/shop/order.def"
      Compilation.shop.texts.find? lib ∧
      WellFounded (lib.IsParent "/shop/order.def") := by
  obtain ⟨hreports, hfinite⟩ := reports_loops_once
  constructor
  · have hcycles : entangled.map (fun d => inheritanceCycles (ofDraft .empty d .empty).2) =
        some [["e::A", "e::B", "e::A"], ["e::M", "e::M"]] := by decide +kernel
    obtain ⟨d, hd, hcycles⟩ := Option.map_eq_some_iff.1 hcycles
    obtain ⟨enums, messages, heq, hrest⟩ := hreports d (passed_alone hd) .empty .empty
    exact ⟨d, enums, messages, hd, passed_alone hd, hcycles.symm.trans heq, hrest⟩
  · obtain ⟨lib, hlib, hfiles, -⟩ := Compilation.ofFile_shop
    refine ⟨lib, .ofFile hlib, hfinite _ _ _ _ lib (.ofFile hlib) _ ?_⟩
    rw [Compilation.absolute_order, hfiles]
    exact mem_cons_self

end Model

end MessageSchema
