/-
  What a draft declares, and in which file.

  * `nodup_qualified`: no two namespaces then have the same qualified name.
-/
import MessageSchema.Proofs.Reachability
import MessageSchema.Proofs.Refinement

namespace MessageSchema

open List QualifiedName Table

namespace Model

/-! ## The index -/

namespace Index

/-- Writes declarations under their qualified names. -/
def declareAll (t : Table Declaration) (es : List (String × Declaration)) : Table Declaration :=
  es.foldl (fun t e => t.insert e.1 e.2) t

/-- The declarations of the namespace `home` under their qualified names. -/
def under (home : String) (ds : List Declaration) : List (String × Declaration) :=
  ds.map fun x => (join (some home) x.name, x)

/-- Without a fault, names are distinct and all are declared. -/
theorem addAll_eq {home : String} {ds : List Declaration} {lines : Table Nat} {ix : Index}
    (h : (addAll home ds lines ix).faults = []) :
    ix.faults = [] ∧ (ds.map Declaration.name).Nodup ∧ (∀ x ∈ ds, lines.find? x.name = none) ∧
      addAll home ds lines ix = { ix with declared := declareAll ix.declared (under home ds) } := by
  induction ds generalizing lines ix with
  | nil => exact ⟨h, nodup_nil, by simp, rfl⟩
  | cons d ds ih =>
    rw [addAll] at h ⊢
    split at h
    · have := (ih h).1
      simp at this
    · next hnone =>
      obtain ⟨hf, hnd, hlines, heq⟩ := ih h
      refine ⟨hf, ?_, ?_, heq⟩
      · rw [map_cons, nodup_cons]
        refine ⟨fun hmem => ?_, hnd⟩
        obtain ⟨x, hx, hname⟩ := mem_map.1 hmem
        exact (find?_insert_eq_none_iff.1 (hlines x hx)).1 hname
      · exact forall_mem_cons.2 ⟨hnone, fun x hx => (find?_insert_eq_none_iff.1 (hlines x hx)).2⟩

section
variable (arena : List Draft.Namespace)

def homeOf (s : Draft.Site) : String := nameOf arena s.index s.ns

/-- The declarations of a site under their qualified names. -/
def declarationsAt (s : Draft.Site) : List (String × Declaration) :=
  under (homeOf arena s) (declarationsOf s.ns.scope)

variable {ix : Index}

theorem addNamespace_eq {s : Draft.Site} (h : (addNamespace arena ix s).faults = []) :
    ix.faults = [] ∧ ix.namespaces.find? (homeOf arena s) = none ∧
      ((declarationsOf s.ns.scope).map Declaration.name).Nodup ∧
      addNamespace arena ix s = { ix with
        namespaces := ix.namespaces.insert (homeOf arena s) s.ns.line
        declared := declareAll ix.declared (declarationsAt arena s) } := by
  rw [addNamespace] at h ⊢
  obtain ⟨hf, hnd, -, heq⟩ := addAll_eq h
  rw [heq]
  split at hf
  · simp at hf
  · next hnone =>
    exact ⟨hf, hnone, hnd, rfl⟩

/-- Without a fault, several namespaces have distinct names. -/
theorem foldl_addNamespace_eq {ss : List Draft.Site}
    (h : (ss.foldl (addNamespace arena) ix).faults = []) :
    ix.faults = [] ∧ (ss.map (homeOf arena)).Nodup ∧
      (∀ s ∈ ss, ix.namespaces.find? (homeOf arena s) = none) ∧
      (∀ s ∈ ss, ((declarationsOf s.ns.scope).map Declaration.name).Nodup) ∧
      ss.foldl (addNamespace arena) ix = { ix with
        namespaces := ss.foldl (fun t s => t.insert (homeOf arena s) s.ns.line) ix.namespaces
        declared := declareAll ix.declared (ss.flatMap (declarationsAt arena)) } := by
  induction ss generalizing ix with
  | nil => exact ⟨h, nodup_nil, by simp, by simp, rfl⟩
  | cons s ss ih =>
    obtain ⟨hf, hnd, hfind, hnames, heq⟩ := ih h
    obtain ⟨hf', hnone, hname, heq'⟩ := addNamespace_eq arena hf
    rw [heq'] at hfind
    refine ⟨hf', ?_, ?_, ?_, ?_⟩
    · rw [map_cons, nodup_cons]
      refine ⟨fun hmem => ?_, hnd⟩
      obtain ⟨x, hx, hname⟩ := mem_map.1 hmem
      exact (find?_insert_eq_none_iff.1 (hfind x hx)).1 hname
    · exact forall_mem_cons.2 ⟨hnone, fun x hx => (find?_insert_eq_none_iff.1 (hfind x hx)).2⟩
    · exact forall_mem_cons.2 ⟨hname, hnames⟩
    · rw [foldl_cons, heq, heq']
      simp [declareAll]

end

end Index

/-- The declarations of a draft under their qualified names. -/
def declarations (d : Draft) : List (String × Declaration) :=
  d.walk.flatMap fun v => Index.under v.site.qualified (declarationsOf v.site.ns.scope)

variable {d : Draft} {q : String} {x : Declaration}

theorem mem_declarations : (q, x) ∈ declarations d ↔
    ∃ v ∈ d.walk, x ∈ declarationsOf v.site.ns.scope ∧
      join (some v.site.qualified) x.name = q := by
  simp only [declarations, Index.under, mem_flatMap, mem_map, Prod.mk.injEq]
  constructor
  · rintro ⟨v, hv, y, hy, hq, rfl⟩
    exact ⟨v, hv, hy, hq⟩
  · rintro ⟨v, hv, hx, hq⟩
    exact ⟨v, hv, x, hx, hq, rfl⟩

/-- The declarations of a draft under the names that the index has for them. -/
def indexed (d : Draft) : List (String × Declaration) :=
  (d.walk.map (·.site)).flatMap (Index.declarationsAt d.arena)

theorem mem_indexed : (q, x) ∈ indexed d ↔
    ∃ v ∈ d.walk, x ∈ declarationsOf v.site.ns.scope ∧
      join (some (Index.homeOf d.arena v.site)) x.name = q := by
  simp only [indexed, Index.declarationsAt, Index.under, mem_flatMap, mem_map, Prod.mk.injEq]
  constructor
  · rintro ⟨-, ⟨v, hv, rfl⟩, y, hy, hq, rfl⟩
    exact ⟨v, hv, hy, hq⟩
  · rintro ⟨v, hv, hx, hq⟩
    exact ⟨v.site, ⟨v, hv, rfl⟩, x, hx, hq, rfl⟩

section
variable {d : Draft} (hword : ∀ v ∈ d.walk, ∀ x ∈ declarationsOf v.site.ns.scope, IsWord x.name)
  (hix : (Index.ofDraft d).faults = [])
include hword hix

theorem nodup_indexed : ((indexed d).map Prod.fst).Nodup := by
  obtain ⟨-, hhomes, -, hnames, -⟩ := Index.foldl_addNamespace_eq d.arena hix
  rw [indexed, map_flatMap, nodup_flatMap]
  constructor
  · intro s hs
    rw [Index.declarationsAt, Index.under, map_map]
    have : (Prod.fst ∘ fun x : Declaration => (join (some (Index.homeOf d.arena s)) x.name, x)) =
        join (some (Index.homeOf d.arena s)) ∘ Declaration.name := rfl
    rw [this, ← map_map]
    exact (hnames s hs).map fun a b => join_some_injective _
  · refine (pairwise_map.1 hhomes).imp_of_mem fun {s t} hs ht hne => ?_
    simp only [Function.onFun, Index.declarationsAt, Index.under, map_map]
    intro q hq hq'
    obtain ⟨v, hv, rfl⟩ := mem_map.1 hs
    obtain ⟨w, hw, rfl⟩ := mem_map.1 ht
    obtain ⟨x, hx, rfl⟩ := mem_map.1 hq
    obtain ⟨y, hy, heq⟩ := mem_map.1 hq'
    exact hne (join_some_inj (hword w hw y hy) (hword v hv x hx) heq).1.symm

/-- **The index holds exactly the declarations of the namespaces.** -/
theorem entries_indexed : (Index.ofDraft d).declared.entries = indexed d := by
  obtain ⟨-, -, -, -, heq⟩ := Index.foldl_addNamespace_eq d.arena hix
  rw [Index.ofDraft, heq]
  have hentries : (Index.declareAll .empty (indexed d)).entries =
      [] ++ (indexed d).map fun e => (e.1, e.2) :=
    entries_foldl_insert (nodup_indexed hword hix) fun _ _ => rfl
  exact hentries.trans (by simp)

end

section
variable {d : Draft} (hd : d.Finished)
include hd

theorem nameOf_eq {v : Draft.Visit} (hv : v ∈ d.walk) :
    Index.nameOf d.arena v.site.index v.site.ns = v.site.qualified := by
  rw [Index.nameOf, hd.qualified v hv]; rfl

theorem indexed_eq : indexed d = declarations d := by
  rw [indexed, flatMap_map]
  refine flatMap_congr fun v hv => ?_
  rw [Index.declarationsAt, Index.homeOf, nameOf_eq hd hv]

variable (hix : (Index.ofDraft d).faults = [])
include hix

theorem nodup_qualified : (d.walk.map (·.site.qualified)).Nodup := by
  obtain ⟨-, hnd, -⟩ := Index.foldl_addNamespace_eq d.arena hix
  rw [map_map] at hnd
  rwa [map_congr_left fun v hv => (nameOf_eq hd hv).symm]

theorem keys_namespaces : (Index.ofDraft d).namespaces.keys = d.walk.map (·.site.qualified) := by
  obtain ⟨-, hnd, -, -, heq⟩ := Index.foldl_addNamespace_eq d.arena hix
  have hentries : ((d.walk.map (·.site)).foldl
      (fun t s => t.insert (Index.homeOf d.arena s) s.ns.line) (.empty : Table Nat)).entries =
        [] ++ (d.walk.map (·.site)).map fun s => (Index.homeOf d.arena s, s.ns.line) :=
    entries_foldl_insert hnd fun _ _ => rfl
  rw [Index.ofDraft, heq, Table.keys, hentries]
  simp only [nil_append, map_map]
  exact map_congr_left fun v hv => nameOf_eq hd hv

theorem nodup_declarations : ((declarations d).map Prod.fst).Nodup :=
  indexed_eq hd ▸ nodup_indexed hd.isWord hix

theorem entries_declared : (Index.ofDraft d).declared.entries = declarations d :=
  (entries_indexed hd.isWord hix).trans (indexed_eq hd)

theorem find?_declared_iff {q : String} {x : Declaration} :
    (Index.ofDraft d).declared.find? q = some x ↔ ∃ v ∈ d.walk, x ∈ declarationsOf v.site.ns.scope ∧
      join (some v.site.qualified) x.name = q := by
  rw [← mem_entries_iff, entries_declared hd hix, mem_declarations]

end

/-! ## Namespaces of several files -/

namespace Ownership

/-- What happens to owners as namespaces are added: none is lost, unless a fault
    comes up. -/
structure Keeps (o o' : Ownership) : Prop where
  faults : o'.faults = [] → o.faults = []
  reported : o'.faults = [] → o.reported = [] → o'.reported = []
  owner : o'.faults = [] → o.reported = [] → ∀ q f, o.owners.find? q = some f →
    o'.owners.find? q = some f

theorem Keeps.refl (o : Ownership) : o.Keeps o := ⟨id, fun _ h => h, fun _ _ _ _ h => h⟩

theorem Keeps.trans {o o' o'' : Ownership} (h : o.Keeps o') (h' : o'.Keeps o'') : o.Keeps o'' where
  faults hf := h.faults (h'.faults hf)
  reported hf hr := h'.reported hf (h.reported (h'.faults hf) hr)
  owner hf hr q f hq :=
    h'.owner hf (h.reported (h'.faults hf) hr) q f (h.owner (h'.faults hf) hr q f hq)

theorem keeps_add (file : String) (line : Nat) (o : Ownership) (other name : String) :
    o.Keeps (o.add file line other name) := by
  rw [add]
  split
  · next hnone =>
    refine ⟨id, fun _ h => h, fun _ _ q f hq => ?_⟩
    have hne : q ≠ name := by rintro rfl; rw [hnone] at hq; cases hq
    exact (find?_insert_of_ne _ hne _).trans hq
  · split
    · exact .refl o
    · exact ⟨by simp, by simp, by simp⟩

theorem owner_add {file : String} {line : Nat} {o : Ownership} {other name : String}
    (h : (o.add file line other name).faults = []) (hr : o.reported = []) :
    (o.add file line other name).owners.find? name = some other := by
  rw [add] at h ⊢
  split at h
  · exact find?_insert_self _ _ _
  · next owner howner =>
    split at h
    · next hif =>
      rw [if_pos hif, howner]
      simpa [hr] using hif
    · simp at h

theorem keeps_foldl {β : Type} {f : Ownership → β → Ownership} (hf : ∀ o x, Keeps o (f o x))
    (xs : List β) (o : Ownership) : o.Keeps (xs.foldl f o) :=
  foldlRecOn xs f (.refl o) fun o' h x _ => h.trans (hf o' x)

theorem exists_keeps_of_mem {β : Type} {f : Ownership → β → Ownership} (hf : ∀ o x, Keeps o (f o x))
    {xs : List β} {x : β} (hx : x ∈ xs) (o : Ownership) :
    ∃ o', o.Keeps o' ∧ (f o' x).Keeps (xs.foldl f o) := by
  obtain ⟨before, after, rfl⟩ := append_of_mem hx
  refine ⟨before.foldl f o, keeps_foldl hf before o, ?_⟩
  rw [foldl_append, foldl_cons]
  exact keeps_foldl hf after _

theorem keeps_addModel (file : String) (line : Nat) (o : Ownership) (m : Model) :
    o.Keeps (o.addModel file line m) :=
  keeps_foldl (fun o (ns : Namespace) => keeps_add file line o m.file ns.qualified) m.namespaces o

/-- The owners of the namespaces of a file. -/
def ofFile (file : String) (own : List String) : Ownership :=
  { owners := own.foldl (fun t q => t.insert q file) .empty }

/-- Goes through the files that an import leads to. -/
def addImport (lib : Library) (d : Draft) (o : Ownership) (i : String × String) : Ownership :=
  (lib.reachable i.2).foldl (addModel d.file (importLine d i.1)) o

theorem keeps_addImport (lib : Library) (d : Draft) (o : Ownership) (i : String × String) :
    o.Keeps (o.addImport lib d i) :=
  keeps_foldl (fun o m => keeps_addModel _ _ o m) _ o

end Ownership

/-- **Without a fault over the imported files, every namespace has one file.** -/
theorem exists_owner {lib : Library} {d : Draft} {own : List String} {imports : Table String}
    (h : importedNamespaceFaults lib d own imports = []) :
    ∃ owner : String → Option String, (∀ q ∈ own, owner q = some d.file) ∧
      ∀ g ∈ imports.values, ∀ m ∈ lib.reachable g, ∀ ns ∈ m.namespaces, owner ns.qualified =
        some m.file := by
  have hvisit := Ownership.keeps_addImport lib d
  have hkeeps := Ownership.keeps_foldl hvisit imports.entries (.ofFile d.file own)
  refine ⟨(imports.entries.foldl (Ownership.addImport lib d) (.ofFile d.file own)).owners.find?,
    fun q hq => ?_, fun g hg m hm ns hns => ?_⟩
  · exact hkeeps.owner h rfl q d.file (find?_foldl_insert_of_mem hq fun _ _ _ => rfl)
  · obtain ⟨i, hi, rfl⟩ := mem_map.1 hg
    -- the owners just before the import, then the model, then the namespace are met
    obtain ⟨o₁, h₁, h₁'⟩ := Ownership.exists_keeps_of_mem hvisit hi (.ofFile d.file own)
    obtain ⟨o₂, h₂, h₂'⟩ := Ownership.exists_keeps_of_mem
      (fun o m => Ownership.keeps_addModel d.file (importLine d i.1) o m) hm o₁
    obtain ⟨o₃, h₃, h₃'⟩ := Ownership.exists_keeps_of_mem
      (fun o (ns : Namespace) => Ownership.keeps_add d.file (importLine d i.1) o m.file
      ns.qualified) hns o₂
    have hend := (h₃'.trans h₂').trans h₁'
    have hbefore : Ownership.Keeps (.ofFile d.file own) o₃ := (h₁.trans h₂).trans h₃
    have hadd := Ownership.keeps_add d.file (importLine d i.1) o₃ m.file ns.qualified
    have hfaults := hend.faults h
    have hreported : o₃.reported = [] := hbefore.reported (hadd.faults hfaults) rfl
    exact hend.owner h (hadd.reported hfaults hreported) _ _ (Ownership.owner_add hfaults hreported)

end Model

end MessageSchema
