/-
  Compiling a part of a system.

  Every file of a successful compilation can be compiled on its own, and gives the
  same models.  What the passes and the builder need to succeed is there already:
  the texts, drafts and models of the system.
-/
import MessageSchema.Proofs.Compiling
import MessageSchema.Proofs.Paths

namespace MessageSchema

open Draft Workspace

namespace System

variable {ext : String} {source : String → Option String} {final : String → Option Draft}
  {lib : Library} (h : System ext source final lib)
include h

theorem imports_target {g : String} {m : Model} (hm : lib.find? g = some m) {raw : Draft}
    (hraw : readFrom source g = some raw) {i : Import} (hi : i ∈ raw.imports) :
    lib.Imports g (Path.ofImport ext g i.path) := by
  obtain ⟨raw', d, -, hset, -, himports⟩ := h.settles hm
  cases hset.read.symm.trans hraw
  refine ⟨m, hm, ?_⟩
  rw [himports, hset.links_eq, ← hset.file_raw]
  exact mem_links hset.keys hi

theorem absolute_of_reaches {f g : String} (hf : Path.absolute f = f) (hg : lib.Reaches f g) :
    Path.absolute g = g := by
  cases hg with
  | refl => exact hf
  | tail _ himports =>
    obtain ⟨m, hm, hg⟩ := himports
    obtain ⟨raw, d, -, -, -, hlinks⟩ := h.settles hm
    rw [hlinks] at hg
    obtain ⟨i, -, rfl⟩ := exists_import_of_mem_links hg
    exact Path.absolute_ofImport _ _ _

section
variable {f : String} (hf : lib.contains f = true) {source' : String → Option String}
  (hsource : ∀ g, lib.Reaches f g → source' g = source g)
include hf hsource

theorem settles_of_reaches {g : String} (hg : lib.Reaches f g) :
    ∃ m raw d, lib.find? g = some m ∧ final g = some d ∧ Settles ext source final g raw d ∧
      readFrom source' g = some raw ∧ Model.ofDraft lib d (d.links ext) = (m, []) := by
  obtain ⟨m, hm⟩ := (Table.contains_iff _ _).1 (h.closed.contains_of_reaches hf hg)
  obtain ⟨d, hd, hbuilt⟩ := h.built hm
  obtain ⟨raw, hset⟩ := h.settled hd
  exact ⟨m, raw, d, hm, hd, hset, by rw [readFrom, hsource g hg]; exact hset.read, hbuilt⟩

theorem readable {fs : FileSystem} (hfs : source' = fs.texts.find?) :
    Loading.Readable ext fs (lib.Reaches f) := by
  intro g hg
  obtain ⟨m, raw, d, hm, -, hset, hread, -⟩ := h.settles_of_reaches hf hsource hg
  obtain ⟨text, htext, hraw⟩ := readFrom_eq_some_iff.1 hread
  rw [hfs] at htext
  exact ⟨text, raw, htext, hraw, fun i hi => hg.tail (h.imports_target hm hset.read hi)⟩

section
variable {w : Workspace} (hw : w.Loaded ext source')
  (hwithin : ∀ p, w.registry.contains p = true → lib.Reaches f p)
include hw hwithin

theorem settles_of_loaded {p : String} {id : DraftId} (hp : w.registry.find? p = some id)
    {raw : Draft} (hraw : w.draft? id = some raw) :
    ∃ d, final p = some d ∧ Settles ext source final p raw d := by
  obtain ⟨-, raw', d, -, hd, hset, hread', -⟩ :=
    h.settles_of_reaches hf hsource (hwithin p (Table.contains_of_find? hp))
  obtain ⟨raw'', hread, hraw'⟩ := hw.hasRead.draft hp
  rw [hread'] at hread
  cases hread
  rw [hraw] at hraw'
  cases hraw'
  exact ⟨d, hd, hset⟩

/-- **Files of a system that have been loaded are refined to its drafts.** -/
theorem refineAll_eq_ok : ∃ w' ids, w.refineAll = (w', .ok ids) ∧
    ∀ {p x}, w'.draftAt? p = some x →
      lib.Reaches f p ∧ ∃ d a, final p = some d ∧ x = { d with attached := a } := by
  obtain ⟨rank, hrank⟩ := h.ranked
  have hdescend : ∀ {p id raw}, w.registry.find? p = some id → w.draft? id = some raw →
      ∀ i ∈ raw.imports, ∀ j, w.imported? raw i = some j → rank (w.target raw i) < rank p := by
    intro p id raw hp hraw i hi j hj
    obtain ⟨d, hd, hset⟩ := h.settles_of_loaded hf hsource hw hwithin hp hraw
    refine hrank hd _ ?_
    rw [hset.links_eq, target, hw.hasRead.extension]
    exact mem_links hset.keys hi
  obtain ⟨ids, hids⟩ := order_eq_ok hdescend
  obtain ⟨hordered, hall⟩ := ordered_order hw.tidy hids
  have hfinal : ∀ id ∈ ids, ∀ raw, w.draft? id = some raw → ∃ d, final raw.file = some d ∧
      d.attached = .empty ∧ KeysApart raw.imports ∧
      Refines (raw.linked w.extension final) raw d := by
    intro id hid raw hraw
    obtain ⟨p, hp⟩ := hordered.registered id hid
    obtain ⟨d, hd, hset⟩ := h.settles_of_loaded hf hsource hw hwithin hp hraw
    rw [hw.hasRead.extension]
    exact ⟨d, by rw [hset.file_raw, hd], hset.refined.attached.trans hset.asRead.attached,
      hset.keys, hset.refines⟩
  obtain ⟨w', hrun, hholds⟩ := refineEach_eq_none (hw.ready hids) hfinal [] rfl (.refl w)
    (fun _ _ => rfl) (by simp)
  refine ⟨w', ids, by rw [refineAll, hids]; simp only [hrun], fun {p x} hx => ?_⟩
  obtain ⟨id, raw, d₀, hp, hraw, hx, hset, -⟩ := hw.draftAt? hids hrun hx
  obtain ⟨d, a, hd, hx'⟩ := hholds id (hall hp) raw hraw
  rw [hset.file_raw] at hd
  exact ⟨hwithin p (Table.contains_of_find? hp), d, a, hd, Option.some.inj (hx.symm.trans hx')⟩

end

variable {fs : FileSystem}

/-- **A text of a system compiles to its models**, if it can be loaded. -/
theorem ofTextAfter_eq (hs : Loading.SourceOf fs f source') {text : String}
    (htext : source' f = some text) {reads : List String} {l : Loading}
    (hl : Loading.run fs f text ⟨.empty ext, reads⟩ = (l, none))
    (hwithin : ∀ p, l.Has p → lib.Reaches f p) :
    ∃ lib', (Compilation.ofTextAfter reads fs ext f text).file = f ∧
      (Compilation.ofTextAfter reads fs ext f text).result = .ok lib' ∧ lib'.AgreesFrom lib f := by
  obtain ⟨hloaded, hfile⟩ := Compilation.loaded_run hs htext hl
  obtain ⟨w, ids, hrefine, hfinal⟩ := h.refineAll_eq_ok hf hsource hloaded hwithin
  obtain ⟨hsettled, hkept⟩ := hloaded.settled_refineAll hrefine
  obtain ⟨x, hx⟩ := hkept hfile
  obtain ⟨rank, hlt, hrank⟩ := hsettled.ranked
  have hlib : ∀ {g y}, w.draftAt? g = some y → ∃ m, lib.find? g = some m ∧
      Model.ofDraft lib y (y.links ext) = (m, []) := by
    intro g y hy
    obtain ⟨hreach, d, a, hd, rfl⟩ := hfinal hy
    obtain ⟨m, -, d', hm, hd', -, -, hbuilt⟩ := h.settles_of_reaches hf hsource hreach
    rw [hd] at hd'
    cases hd'
    exact ⟨m, hm, hbuilt⟩
  obtain ⟨lib', events, hrun, hclosed, hagree, hcontains⟩ :=
    Build.run_eq_ok hsettled.wired hx hrank hlt hlib
  have hdraft : (w.registry.find? f).bind w.draft? = some x := hx
  have hbuild : Compilation.ofTextAfter reads fs ext f text =
      ⟨f, .ok lib', l.reads, w.events ++ events ++ [.compiled f lib'.size]⟩ := by
    simp only [Compilation.ofTextAfter, hl, hrefine, Compilation.build, hdraft, hrun]
  exact ⟨lib', by rw [hbuild], by rw [hbuild], hagree.agreesFrom hclosed hcontains⟩

/-- **A file of a system compiles to its models.** -/
theorem ofFile_eq (hfs : source' = fs.texts.find?) (habs : Path.absolute f = f) :
    ∃ lib', (Compilation.ofFile fs ext f).file = f ∧
      (Compilation.ofFile fs ext f).result = .ok lib' ∧
      lib'.AgreesFrom lib f := by
  obtain ⟨-, raw, -, -, -, -, hread, -⟩ := h.settles_of_reaches hf hsource .refl
  obtain ⟨text, htext, -⟩ := readFrom_eq_some_iff.1 hread
  have hfind : fs.texts.find? f = some text := hfs ▸ htext
  obtain ⟨l, hl, hwithin⟩ := Loading.run_eq_none (h.readable hf hsource hfs) .refl hfind [f]
  rw [Compilation.ofFile, habs, hfind]
  exact h.ofTextAfter_eq hf hsource (fun p _ => congrFun hfs p) htext hl hwithin

end

end System

namespace Compilation

/-- **Files are compiled separately**: a file that is reached by a compilation can be
    compiled on its own, with any file system that has the same texts for the files
    reachable from it, and gives the same models. -/
theorem ofFile_of_reachable {fs : FileSystem} {ext path : String} {lib : Library}
    (h : (ofFile fs ext path).result = .ok lib) {f : String}
    (hf : f ∈ lib.reachableFiles (Path.absolute path)) {fs' : FileSystem}
    (hfs : ∀ g ∈ lib.reachableFiles f, fs'.texts.find? g = fs.texts.find? g) :
    ∃ lib', (ofFile fs' ext f).file = f ∧ (ofFile fs' ext f).result = .ok lib' ∧
      lib'.reachableFiles f = lib.reachableFiles f ∧ lib'.reachable f = lib.reachable f ∧
      f ∈ lib.reachableFiles f ∧ ∀ g ∈ lib.reachableFiles f, lib'.find? g = lib.find? g := by
  obtain ⟨final, hsys, -⟩ := (Compiles.ofFile h).system
  obtain ⟨hreach, hcontains⟩ := Library.reaches_of_mem_reachableFiles hf
  have hmem : ∀ g, g ∈ lib.reachableFiles f ↔ lib.Reaches f g :=
    fun g => Library.mem_reachableFiles_iff hsys.closed hcontains
  have habs := hsys.absolute_of_reaches (Path.absolute_absolute path) hreach
  obtain ⟨lib', hfile, hok, hagree⟩ :=
    hsys.ofFile_eq hcontains (fun g hg => hfs g ((hmem g).2 hg)) rfl habs
  refine ⟨lib', hfile, hok, Library.reachableFiles_congr hagree, Library.reachable_congr hagree,
    (hmem f).2 .refl, fun g hg => hagree g ?_⟩
  rw [← Library.reachableFiles_congr hagree] at hg
  exact (Library.reaches_of_mem_reachableFiles hg).1

/-- The same files with a text for the order that is no schema. -/
def brokenShop : FileSystem := { shop with texts := shop.texts.insert "/shop/order.def" "message" }

theorem ofFile_brokenShop : ∃ lib lib', (ofFile shop ".def" "/shop/order.def").result = .ok lib ∧
    "/shop/item.def" ∈ lib.reachableFiles "/shop/order.def" ∧
    (ofFile brokenShop ".def" "/shop/item.def").result = .ok lib' ∧
    lib'.reachableFiles "/shop/item.def" = ["/shop/item.def", "/shop/base.def"] ∧
    lib'.reachable "/shop/item.def" = lib.reachable "/shop/item.def" := by
  obtain ⟨lib, hlib, hfiles, hitem⟩ := ofFile_shop
  have hmem : "/shop/item.def" ∈ lib.reachableFiles "/shop/order.def" := by rw [hfiles]; decide
  have hsame : ∀ g ∈ lib.reachableFiles "/shop/item.def",
      brokenShop.texts.find? g = shop.texts.find? g := by rw [hitem]; decide
  obtain ⟨lib', -, hok, hreach, hmodels, -⟩ :=
    ofFile_of_reachable hlib (by rw [absolute_order]; exact hmem) hsame
  exact ⟨lib, lib', hlib, hmem, hok, hreach.trans hitem, hmodels⟩

end Compilation

end MessageSchema
