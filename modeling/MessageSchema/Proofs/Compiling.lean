/-
  What a successful compilation gives.
-/
import MessageSchema.Compile
import MessageSchema.Proofs.Building
import MessageSchema.Proofs.Loading
import MessageSchema.Proofs.System

namespace MessageSchema

open Option Draft

namespace Workspace

/-! ## Refining what has been read -/

/-- Drafts that have just been read, with all that they import. -/
structure Loaded (ext : String) (source : String → Option String) (w : Workspace) : Prop where
  hasRead : w.HasRead ext source
  imports : ∀ {p d}, w.registry.contains p = true → readFrom source p = some d →
    ∀ i ∈ d.imports, w.registry.contains (Path.ofImport ext p i.path) = true

namespace Loaded

variable {ext : String} {source : String → Option String} {w : Workspace} (h : w.Loaded ext source)
include h

theorem tidy : w.Tidy := by
  intro p id hp
  obtain ⟨d, hread, hd⟩ := h.hasRead.draft hp
  exact ⟨d, hd, (asRead_of_readFrom hread).2.1⟩

theorem imported? {p : String} {id : DraftId} {raw : Draft} (hp : w.registry.find? p = some id)
    (hraw : readFrom source p = some raw) : ∀ i ∈ raw.imports, ∃ j, w.imported? raw i = some j := by
  intro i hi
  rw [Workspace.imported?, h.hasRead.target hraw]
  exact (Table.contains_iff _ _).1 (h.imports (Table.contains_of_find? hp) hraw i hi)

theorem ready {ids : List DraftId} (hids : w.order = .ok ids) : w.Ready ids := by
  obtain ⟨hordered, -⟩ := ordered_order h.tidy hids
  refine ⟨h.tidy, hordered, fun id hid => ?_⟩
  obtain ⟨p, hp⟩ := hordered.registered id hid
  obtain ⟨raw, hread, hraw⟩ := h.hasRead.draft hp
  exact ⟨raw, hraw, (asRead_of_readFrom hread).1.attached, h.imported? hp hread⟩

end Loaded

/-- Drafts that the passes have been run on. -/
structure Settled (ext : String) (source : String → Option String) (w : Workspace) : Prop where
  wired : w.Wired ext
  settles : ∀ {f d}, w.final f = some d → ∃ raw, Settles ext source w.final f raw d
  ranked : ∃ rank : String → Nat, (∀ {f d}, w.draftAt? f = some d → rank f < w.drafts.length) ∧
    ∀ {f d}, w.draftAt? f = some d → ∀ g ∈ (d.links ext).values, rank g < rank f

section
variable {ext : String} {source : String → Option String} {w w' : Workspace} {ids : List DraftId}

theorem Loaded.exists_draftAt? (h : w.Loaded ext source) (hids : w.order = .ok ids)
    (hrun : refineEach Pass.multi ids w = (w', none)) {p : String}
    (hp : w.registry.contains p = true) : ∃ x, w'.draftAt? p = some x := by
  obtain ⟨-, hall⟩ := ordered_order h.tidy hids
  obtain ⟨hsame, hmakes⟩ := makes_refineEach (h.ready hids) hrun
  obtain ⟨id, hid⟩ := (Table.contains_iff _ _).1 hp
  obtain ⟨raw, -, hraw⟩ := h.hasRead.draft hid
  obtain ⟨d, -, hd⟩ := hmakes id (hall hid) raw hraw
  exact ⟨_, by rw [Workspace.draftAt?, hsame.registry, hid, bind_some, hd]⟩

/-- What a path stands for after the passes. -/
theorem Loaded.draftAt? (h : w.Loaded ext source) (hids : w.order = .ok ids)
    (hrun : refineEach Pass.multi ids w = (w', none)) {p : String} {x : Draft}
    (hx : w'.draftAt? p = some x) :
    ∃ id raw d, w.registry.find? p = some id ∧ w.draft? id = some raw ∧
      w'.draft? id = some x ∧ Settles ext source w'.final p raw d ∧
      x = { d with attached := w.linksOf raw } := by
  obtain ⟨-, hall⟩ := ordered_order h.tidy hids
  obtain ⟨hsame, hmakes⟩ := makes_refineEach (h.ready hids) hrun
  obtain ⟨id, hid, hx⟩ := bind_eq_some_iff.1 hx
  rw [hsame.registry] at hid
  obtain ⟨raw, hread, hraw⟩ := h.hasRead.draft hid
  obtain ⟨d, ⟨hkeys, hrefines⟩, hd⟩ := hmakes id (hall hid) raw hraw
  rw [hsame.extension, h.hasRead.extension] at hrefines
  refine ⟨id, raw, d, hid, hraw, hx, ⟨hread, hkeys, fun i hi => ?_, hrefines⟩, ?_⟩
  · obtain ⟨x, hx⟩ :=
      h.exists_draftAt? hids hrun (h.imports (Table.contains_of_find? hid) hread i hi)
    exact ⟨_, by rw [final, hx, map_some]⟩
  · rw [hd] at hx
    exact (some.inj hx).symm

theorem exists_target {f : String} {raw d : Draft} (hset : Settles ext source w.final f raw d)
    {g : String} (hg : g ∈ (d.links ext).values) :
    ∃ i ∈ raw.imports, Path.ofImport ext f i.path = g ∧ ∃ x, w.draftAt? g = some x := by
  rw [hset.links_eq] at hg
  obtain ⟨i, hi, rfl⟩ := exists_import_of_mem_links hg
  obtain ⟨y, hy⟩ := hset.present i hi
  obtain ⟨x, hx, -⟩ := map_eq_some_iff.1 hy
  rw [hset.file_raw]
  exact ⟨i, hi, rfl, x, hx⟩

/-- After the passes, every draft has those attached that it imports. -/
theorem Loaded.wired (h : w.Loaded ext source) (hids : w.order = .ok ids)
    (hrun : refineEach Pass.multi ids w = (w', none)) : w'.Wired ext := by
  obtain ⟨hsame, -⟩ := makes_refineEach (h.ready hids) hrun
  refine ⟨fun {p x} hx => ?_, fun {p x} hx => ?_, fun {p x} hx => ?_⟩
  · obtain ⟨id, raw, d, -, -, -, hset, rfl⟩ := h.draftAt? hids hrun hx
    exact hset.file
  · obtain ⟨id, raw, d, hid, -, -, hset, rfl⟩ := h.draftAt? hids hrun hx
    have hfound : ∀ i ∈ raw.imports, ∃ j, w'.imported? raw i = some j := by
      intro i hi
      rw [hsame.imported?]
      exact h.imported? hid hset.read i hi
    have hattached := attachments_linksOf hfound
    rw [hsame.linksOf, hsame.extension, h.hasRead.extension, ← hset.links_eq] at hattached
    exact hattached
  · obtain ⟨id, raw, d, -, -, -, hset, rfl⟩ := h.draftAt? hids hrun hx
    intro g hg
    obtain ⟨-, -, -, hx⟩ := exists_target hset hg
    exact hx

theorem Loaded.ranked (h : w.Loaded ext source) (hids : w.order = .ok ids)
    (hrun : refineEach Pass.multi ids w = (w', none)) :
    ∃ rank : String → Nat, (∀ {f d}, w'.draftAt? f = some d → rank f < w'.drafts.length) ∧
      ∀ {f d}, w'.draftAt? f = some d → ∀ g ∈ (d.links ext).values, rank g < rank f := by
  obtain ⟨hsame, -⟩ := makes_refineEach (h.ready hids) hrun
  obtain ⟨rank, hlt, hrank⟩ := exists_rank h.tidy hids
  refine ⟨rank, fun {f x} hx => ?_, fun {f x} hx g hg => ?_⟩
  · obtain ⟨id, raw, d, hid, -⟩ := h.draftAt? hids hrun hx
    rw [hsame.length]
    exact hlt hid
  · obtain ⟨id, raw, d, hid, hraw, -, hset, rfl⟩ := h.draftAt? hids hrun hx
    obtain ⟨i, hi, rfl, -⟩ := exists_target hset hg
    obtain ⟨j, hj⟩ := h.imported? hid hset.read i hi
    have hbelow := hrank hid hraw i hi j hj
    rwa [h.hasRead.target hset.read] at hbelow

/-- **The passes settle what has been loaded.** -/
theorem Loaded.settled (h : w.Loaded ext source) (hids : w.order = .ok ids)
    (hrun : refineEach Pass.multi ids w = (w', none)) : w'.Settled ext source := by
  refine ⟨h.wired hids hrun, fun {f d} hd => ?_, h.ranked hids hrun⟩
  obtain ⟨x, hx, rfl⟩ := map_eq_some_iff.1 hd
  obtain ⟨id, raw, d, -, -, -, hset, rfl⟩ := h.draftAt? hids hrun hx
  have hempty : d.attached = .empty := hset.refined.attached.trans hset.asRead.attached
  have hdetach : detach { d with attached := w.linksOf raw } = d := detach_eq_self hempty
  exact ⟨raw, by rw [hdetach]; exact hset⟩

end

theorem Loaded.settled_refineAll {ext : String} {source : String → Option String} {w w' : Workspace}
    {ids : List DraftId} (h : w.Loaded ext source) (hrun : w.refineAll = (w', .ok ids)) :
    w'.Settled ext source ∧ ∀ {p}, w.registry.contains p = true → ∃ x, w'.draftAt? p = some x := by
  rw [refineAll] at hrun
  split at hrun
  · cases hrun
  · next hids =>
    split at hrun
    · cases hrun
    · next heach =>
      cases hrun
      exact ⟨h.settled hids heach, h.exists_draftAt? hids heach⟩

end Workspace

namespace Compilation

open Loading (SourceOf)

variable {ext file : String} {source : String → Option String} {fs : FileSystem}
  {reads : List String} {l : Loading}

theorem loaded_run {text : String} (hs : SourceOf fs file source) (htext : source file = some text)
    (h : Loading.run fs file text ⟨.empty ext, reads⟩ = (l, none)) :
    l.workspace.Loaded ext source ∧ l.workspace.registry.contains file = true := by
  obtain ⟨hread, hfile, himports⟩ := Loading.loads_run hs htext h
  exact ⟨⟨hread, fun hp hd => himports hp hd⟩, hfile⟩

theorem system_of_build {lib : Library} (hl : l.workspace.Settled ext source) {d : Draft}
    (hd : l.workspace.draftAt? file = some d) (h : (build file l).result = .ok lib) :
    System ext source l.workspace.final lib ∧ lib.contains file = true := by
  rw [build, ← Workspace.draftAt?, hd] at h
  simp only at h
  split at h
  · cases h
  · next hrun =>
    cases h
    obtain ⟨hsound, hcontains⟩ := Build.sound_run hl.wired hd hrun
    obtain ⟨rank, -, hrank⟩ := hl.ranked
    refine ⟨⟨hl.settles, ⟨rank, fun {f x} hx g hg => ?_⟩, fun {f m} hm => ?_, hsound.closed⟩,
      hcontains⟩
    · obtain ⟨y, hy, rfl⟩ := map_eq_some_iff.1 hx
      exact hrank hy g hg
    · obtain ⟨y, hy, hbuilt⟩ := hsound.built hm
      exact ⟨y.detach, by rw [Workspace.final, hy, map_some], hbuilt⟩

theorem system_of_ok {text : String} (hs : SourceOf fs file source)
    (htext : source file = some text) {lib : Library}
    (h : (ofTextAfter reads fs ext file text).result = .ok lib) :
    ∃ final, System ext source final lib ∧ lib.contains file = true := by
  rw [ofTextAfter] at h
  split at h
  · cases h
  · cases h
  · next l hrun =>
    obtain ⟨hloaded, hfile⟩ := loaded_run hs htext hrun
    split at h
    · cases h
    · next w ids hrefine =>
      obtain ⟨hsettled, hkept⟩ := hloaded.settled_refineAll hrefine
      obtain ⟨d, hd⟩ := hkept hfile
      exact ⟨_, system_of_build (l := { l with workspace := w }) hsettled hd h⟩

/-- A compilation of a file, or of a text that stands for one, gives the models `lib`;
    `source` has the texts that are compiled. -/
inductive Compiles (fs : FileSystem) (ext path : String) : (String → Option String) → Library → Prop
  | ofFile {lib} : (Compilation.ofFile fs ext path).result = .ok lib →
      Compiles fs ext path fs.texts.find? lib
  | ofText {text lib} : (Compilation.ofText fs ext path text).result = .ok lib →
      Compiles fs ext path (fun p => if p = Path.absolute path then some text
      else fs.texts.find? p) lib

/-- **The models of a successful compilation belong together**, and that of the
    compiled file is among them. -/
theorem Compiles.system {path : String} {lib : Library} (h : Compiles fs ext path source lib) :
    ∃ final, System ext source final lib ∧ lib.contains (Path.absolute path) = true := by
  cases h with
  | ofFile h =>
    simp only [Compilation.ofFile] at h
    split at h
    · cases h
    · next text htext => exact system_of_ok (fun _ _ => rfl) htext h
  | ofText h =>
    rw [Compilation.ofText] at h
    refine system_of_ok (fun p hp => if_neg hp) ?_ h
    exact if_pos rfl

/-- An order of items by a party.  Both files import a third one, and the items are
    imported under an alias. -/
def shop : FileSystem where
  texts := Table.empty
    |>.insert "/shop/order.def"
      "import \"item.def\" as I import \"party.def\"
       message Order : Party \x7b items: I::Item[] state: enum \x7b Open, Closed \x7d \x7d"
    |>.insert "/shop/item.def"
      "import \"base.def\" message Item \x7b spot: Spot sizes: Map<base.Size, Size> \x7d"
    |>.insert "/shop/party.def" "import \"base.def\" message Party : Record \x7b \x7d"
    |>.insert "/shop/base.def"
      "message Record \x7b id: int \x7d enum Size \x7b Small, Large \x7d float Spot \x7b x, y \x7d"
  unreadable := []
  refusal := id

theorem ofFile_shop : ∃ lib, (ofFile shop ".def" "/shop/order.def").result = .ok lib ∧
    lib.reachableFiles "/shop/order.def" =
      ["/shop/order.def", "/shop/item.def", "/shop/base.def", "/shop/party.def"] ∧
    lib.reachableFiles "/shop/item.def" = ["/shop/item.def", "/shop/base.def"] := by
  obtain ⟨lib, hlib, hfiles⟩ :=
    exists_of_map_toOption (x := (ofFile shop ".def" "/shop/order.def").result)
    (p := fun lib => (lib.reachableFiles "/shop/order.def", lib.reachableFiles "/shop/item.def"))
    (b := (["/shop/order.def", "/shop/item.def", "/shop/base.def", "/shop/party.def"],
      ["/shop/item.def", "/shop/base.def"])) (by decide +kernel)
  exact ⟨lib, hlib, Prod.mk.inj hfiles⟩

theorem absolute_order : Path.absolute "/shop/order.def" = "/shop/order.def" := by decide +kernel

end Compilation

end MessageSchema
