/-
  Systems of files that are compiled together.

  A system has a text, a draft and a model for each of its files.  The drafts are
  what the passes make of the texts, and the models what is built of the drafts,
  each with those of the imported files.
-/
import MessageSchema.Proofs.Entities
import MessageSchema.Proofs.Links

namespace MessageSchema

open Draft

/-- The passes make `d` of the file `f`, of which `raw` was read, with the drafts that
    `final` has for its imports. -/
structure Settles (ext : String) (source : String → Option String) (final : String → Option Draft)
    (f : String) (raw d : Draft) : Prop where
  read : readFrom source f = some raw
  keys : KeysApart raw.imports
  present : ∀ i ∈ raw.imports, ∃ x, final (Path.ofImport ext f i.path) = some x
  refines : Refines (raw.linked ext final) raw d

namespace Settles

variable {ext : String} {source : String → Option String} {final : String → Option Draft}
  {f : String} {raw d : Draft} (h : Settles ext source final f raw d)
include h

theorem asRead : raw.AsRead := (asRead_of_readFrom h.read).1

theorem file_raw : raw.file = f := (asRead_of_readFrom h.read).2.1

theorem refined : Refined (raw.linked ext final) raw d := h.refines.refined h.asRead

theorem file : d.file = f := h.refined.file.trans h.file_raw

theorem links_eq : d.links ext = raw.links ext := by
  rw [links, links, h.refined.imports_eq, h.refined.file]

theorem finished : d.Finished := h.refined.finished h.asRead

end Settles

/-- Texts, drafts and models that belong together. -/
structure System (ext : String) (source : String → Option String) (final : String → Option Draft)
    (lib : Library) : Prop where
  settled : ∀ {f d}, final f = some d → ∃ raw, Settles ext source final f raw d
  /-- no file imports itself, directly or not -/
  ranked : ∃ rank : String → Nat, ∀ {f d}, final f = some d → ∀ g ∈ (d.links ext).values,
    rank g < rank f
  built : ∀ {f m}, lib.find? f = some m → ∃ d, final f = some d ∧
    Model.ofDraft lib d (d.links ext) = (m, [])
  closed : lib.Closed

namespace System

variable {ext : String} {source : String → Option String} {final : String → Option Draft}
  {lib : Library} (h : System ext source final lib) {f : String} {m : Model}
include h

variable {root : Model}

/-- The draft of a model, and what it was read as. -/
theorem settles (hm : lib.find? f = some m) :
    ∃ raw d, final f = some d ∧ Settles ext source final f raw d ∧ Model.Models lib d m ∧
      m.imports = d.links ext := by
  obtain ⟨d, hd, hbuilt⟩ := h.built hm
  obtain ⟨raw, hraw⟩ := h.settled hd
  have himports : m.imports = d.links ext := by rw [(Model.ofDraft_eq hbuilt).1]
  exact ⟨raw, d, hd, hraw, ⟨hraw.finished, by rw [himports]; exact hbuilt⟩, himports⟩

theorem models (hm : lib.find? f = some m) : ∃ d, Model.Models lib d m := by
  obtain ⟨-, d, -, -, hmodels, -⟩ := h.settles hm
  exact ⟨d, hmodels⟩

theorem file_eq (hm : lib.find? f = some m) : m.file = f := by
  obtain ⟨raw, d, -, hraw, hmodels, -⟩ := h.settles hm
  exact hmodels.file.trans hraw.file

theorem mem_reachable (hm : m ∈ lib.reachable f) :
    lib.Reaches f m.file ∧ lib.find? m.file = some m := by
  obtain ⟨g, hg, hfind⟩ := List.mem_filterMap.1 hm
  rw [h.file_eq hfind]
  exact ⟨(Library.reaches_of_mem_reachableFiles hg).1, hfind⟩

theorem map_file_reachable (f : String) :
    (lib.reachable f).map (·.file) = lib.reachableFiles f := by
  rw [Library.reachable, List.map_filterMap]
  refine (List.filterMap_congr fun g hg => ?_).trans List.filterMap_some
  obtain ⟨m, hm⟩ := (Table.contains_iff _ _).1 (Library.reaches_of_mem_reachableFiles hg).2
  rw [hm, Option.map_some, h.file_eq hm]

/-- The models reachable from a file are its own and those reachable from its
    imports. -/
theorem mem_reachable_cases (hroot : lib.find? f = some root) (hm : m ∈ lib.reachable f) :
    m = root ∨ ∃ g ∈ root.imports.values, m ∈ lib.reachable g := by
  obtain ⟨hreach, hfind⟩ := h.mem_reachable hm
  rcases Relation.ReflTransGen.cases_head hreach with heq | ⟨g, ⟨root', hroot', hg⟩, hrest⟩
  · rw [← heq, hroot] at hfind
    exact .inl (Option.some.inj hfind).symm
  · rw [hroot] at hroot'
    cases hroot'
    exact .inr ⟨g, hg, (Library.mem_reachable_iff h.closed (h.closed f g ⟨root, hroot, hg⟩)).2
      ⟨_, hrest, hfind⟩⟩

/-- **Among the models reachable from a file, every namespace is in one file.** -/
theorem exists_owner (hroot : lib.find? f = some root) :
    ∃ owner : String → Option String, ∀ m ∈ lib.reachable f, ∀ ns ∈ m.namespaces,
      owner ns.qualified = some m.file := by
  obtain ⟨d, hmodels⟩ := h.models hroot
  obtain ⟨owner, hown, himports⟩ := Model.exists_owner hmodels.faultless.owners
  refine ⟨owner, fun m hm ns hns => ?_⟩
  rcases h.mem_reachable_cases hroot hm with rfl | ⟨g, hg, hm⟩
  · rw [hmodels.file]
    refine hown _ ?_
    rw [Model.keys_namespaces hmodels.finished hmodels.faultless.index]
    exact hmodels.qualified_namespaces_perm.mem_iff.1 (List.mem_map_of_mem hns)
  · exact himports g hg m hm ns hns

end System

end MessageSchema
