/-
  What a file and its imports amount to: the files loaded, built and listed.

  `Loading.Leads ext source p q` says that the text of `p` has an import that
  leads to `q`.
-/
import MessageSchema.Proofs.PlacedPasses
import MessageSchema.Proofs.SeparateCompilation

namespace MessageSchema

open List Relation Option Draft Table

/-- The texts of the files, where `file` has the text `text`. -/
def FileSystem.source (fs : FileSystem) (file text : String) (p : String) : Option String :=
  if p = file then some text else fs.texts.find? p

namespace Workspace

/-- Every import of every draft leads to a draft of the workspace. -/
def Complete (w : Workspace) : Prop := ∀ p d, w.draftAt? p = some d → ∀ i ∈ d.imports,
  ∃ e, w.draftAt? (w.target d i) = some e ∧ e.file = w.target d i

/-- Every import of every draft has the draft attached that it leads to. -/
def Linked (w : Workspace) : Prop := ∀ p d, w.draftAt? p = some d → ∀ i ∈ d.imports,
  ∃ e, (i.key, e) ∈ w.attachedTo d ∧ e.file = w.target d i

variable {ext : String} {source : String → Option String} {w : Workspace}

theorem Loaded.complete (h : w.Loaded ext source) : w.Complete := by
  intro p d hd i hi
  obtain ⟨id, hid, hd⟩ := bind_eq_some_iff.1 hd
  obtain ⟨raw, hread, hraw⟩ := h.hasRead.draft hid
  rw [hd] at hraw
  cases hraw
  obtain ⟨j, hj⟩ := h.imported? hid hread i hi
  obtain ⟨e, he, hfile⟩ := h.tidy hj
  exact ⟨e, bind_eq_some_iff.2 ⟨j, hj, he⟩, hfile⟩

theorem Settled.linked (h : w.Settled ext source) (hext : w.extension = ext) : w.Linked := by
  intro p d hd i hi
  obtain ⟨raw, hset⟩ := h.settles (f := p) (d := d.detach) (by rw [final, hd]; rfl)
  have himports : d.imports = raw.imports := hset.refined.imports_eq
  have hlink : (d.links ext).find? i.key = some (w.target d i) := by
    rw [target, hext]
    exact find?_links (himports ▸ hset.keys) hi
  obtain ⟨e, he⟩ := h.wired.present hd _ ((mem_values_iff _ _).2 ⟨_, hlink⟩)
  refine ⟨e, ?_, h.wired.file he⟩
  rw [h.wired.attached hd]
  refine List.mem_filterMap.2 ⟨(i.key, w.target d i), (mem_entries_iff _ _ _).2 hlink, ?_⟩
  rw [he]
  rfl

end Workspace

namespace Loading

/-- The text of a file has an import that leads to another file. -/
def Leads (ext : String) (source : String → Option String) (p q : String) : Prop :=
  ∃ d, readFrom source p = some d ∧ ∃ i ∈ d.imports, Path.ofImport ext p i.path = q

section
variable {fs : FileSystem} {d : Draft} {is : List Import} {l : Loading}
  {r : Loading × Option Interruption}

theorem Grown.draftAt? {l' : Loading} (h : l.Grown l') {p : String} {d : Draft}
    (hd : l.workspace.draftAt? p = some d) : l'.workspace.draftAt? p = some d := by
  obtain ⟨id, hid, hd⟩ := bind_eq_some_iff.1 hd
  exact bind_eq_some_iff.2 ⟨id, h.find? hid, h.draft? hd⟩

theorem draftAt?_add (l : Loading) (path : String) (d : Draft) :
    (l.add path d).workspace.draftAt? path = some d := by
  refine bind_eq_some_iff.2 ⟨_, find?_insert_self _ _ _, ?_⟩
  simp [add, Workspace.draft?, Workspace.insert, Workspace.note]

/-- **The files that are read are those that are added**, in the same order. -/
theorem Runs.reads (h : Runs fs d is l r) (hr : r.2 = none) : ∃ new, r.1.reads = l.reads ++ new ∧
    r.1.workspace.registry.keys = l.workspace.registry.keys ++ new := by
  induction h with
  | done => exact ⟨[], by simp⟩
  | known _ _ ih => exact ih hr
  | missing | unreadable | faulty | stopped => cases hr
  | @loaded d i is l path text e l' r _ hnew _ _ _ _ ih₁ ih₂ =>
    obtain ⟨new₁, hreads₁, hkeys₁⟩ := ih₁ rfl
    obtain ⟨new₂, hreads₂, hkeys₂⟩ := ih₂ hr
    have hadd : ((l.read path).add path e).workspace.registry.keys =
        l.workspace.registry.keys ++ [path] :=
      keys_insert_of_not_mem _ (fun hmem => hnew ((mem_keys_iff _ _).1 hmem)) _
    refine ⟨path :: new₁ ++ new₂, ?_, ?_⟩
    · rw [hreads₂, hreads₁]
      simp [add, read]
    · rw [hkeys₂, hkeys₁, hadd]
      simp

/-- **Loading stops for want of a file** only at an import of a draft that is loaded. -/
theorem Runs.missing_import (h : Runs fs d is l r) {p : String}
    (hd : l.workspace.draftAt? p = some d) (his : is ⊆ d.imports) {fault : Fault}
    (hr : r.2 = some (.fault fault)) (hcode : fault.code = .missingImport) :
    ∃ q e i, r.1.workspace.draftAt? q = some e ∧ i ∈ e.imports ∧
      fs.exists (r.1.workspace.target e i) = false ∧
      fault = { cause := .importMissing i.path (r.1.workspace.target e i)
                file := e.file, line := i.line } := by
  induction h generalizing p with
  | done => cases hr
  | known _ _ ih => exact ih hd (fun j hj => his (mem_cons_of_mem _ hj)) hr
  | missing htarget _ hexists =>
    cases hr
    subst htarget
    exact ⟨p, _, _, hd, his mem_cons_self, hexists, rfl⟩
  | unreadable => cases hr
  | faulty _ _ _ hread =>
    cases hr
    rw [code_of_read hread] at hcode
    cases hcode
  | stopped _ _ _ _ _ ih => exact ih (draftAt?_add _ _ _) (List.Subset.refl _) hr
  | loaded _ hnew _ _ hrun _ _ ih₂ =>
    have hgrown := (grown_read_add hnew _).trans hrun.grown
    exact ih₂ (hgrown.draftAt? hd) (fun j hj => his (mem_cons_of_mem _ hj)) hr

end

section
variable {fs : FileSystem} {ext file text : String} {reads : List String} {l : Loading}

theorem source_self (fs : FileSystem) (file text : String) : fs.source file text file = some text :=
  if_pos rfl

theorem sourceOf_source (fs : FileSystem) (file text : String) :
    SourceOf fs file (fs.source file text) :=
  fun _ hp => if_neg hp

/-- **The files loaded are those that imports lead to.** -/
theorem has_iff (h : run fs file text ⟨.empty ext, reads⟩ = (l, none)) {p : String} :
    l.Has p ↔ ReflTransGen (Leads ext (fs.source file text)) file p := by
  constructor
  · obtain ⟨d, hread, hrun⟩ := exists_runs h
    have hfile : d.file = file := (read_asRead hread).2.1
    have hstart : Stays ext (ReflTransGen (Leads ext (fs.source file text)) file)
        (Loading.add ⟨.empty ext, reads⟩ file d) := by
      refine ⟨rfl, fun p hp => ?_⟩
      rcases has_add.1 hp with rfl | hp
      · exact .refl
      · exact absurd hp (not_has_empty ext reads p)
    refine (hrun.stays ?_ (has_add.2 (.inl rfl)) hstart fun i hi => ?_).has p
    · intro p text' e hp hne htext hread j hj
      have hsource : readFrom (fs.source file text) p = some e :=
        readFrom_eq_some_iff.2 ⟨text', (sourceOf_source fs file text p hne).trans htext, hread⟩
      exact hp.tail ⟨e, hsource, j, hj, rfl⟩
    · rw [hfile]
      have hsource : readFrom (fs.source file text) file = some d :=
        readFrom_eq_some_iff.2 ⟨text, source_self fs file text, hread⟩
      exact .single ⟨d, hsource, i, hi, rfl⟩
  · intro hp
    obtain ⟨-, hfile, himports⟩ :=
      loads_run (sourceOf_source fs file text) (source_self fs file text) h
    induction hp with
    | refl => exact hfile
    | tail _ hstep ih =>
      obtain ⟨d, hd, i, hi, rfl⟩ := hstep
      exact himports ih hd i hi

/-- **Every file but the first is read once**, in the order of loading. -/
theorem exists_reads (h : run fs file text ⟨.empty ext, reads⟩ = (l, none)) :
    ∃ new, l.reads = reads ++ new ∧ l.workspace.registry.keys = file :: new := by
  obtain ⟨d, -, hrun⟩ := exists_runs h
  exact hrun.reads rfl

theorem exists_missing {fault : Fault}
    (h : run fs file text ⟨.empty ext, reads⟩ = (l, some (.fault fault)))
    (hcode : fault.code = .missingImport) :
    ∃ p d i, l.workspace.draftAt? p = some d ∧ i ∈ d.imports ∧
      fs.exists (l.workspace.target d i) = false ∧
      fault = { cause := .importMissing i.path (l.workspace.target d i)
                file := d.file, line := i.line } := by
  cases (run_eq_iff (not_has_empty ext reads file)).1 h with
  | faulty hread =>
    rw [code_of_read hread] at hcode
    cases hcode
  | read _ hrun => exact hrun.missing_import (draftAt?_add _ _ _) (List.Subset.refl _) rfl hcode

end

end Loading

namespace Compilation

variable {fs : FileSystem} {ext file text : String} {reads : List String} {lib : Library}

theorem stages_of_ok (h : (ofTextAfter reads fs ext file text).result = .ok lib) :
    ∃ l w ids, Loading.run fs file text ⟨.empty ext, reads⟩ = (l, none) ∧
      l.workspace.refineAll = (w, .ok ids) ∧
        (build file { l with workspace := w }).result = .ok lib := by
  rw [ofTextAfter] at h
  split at h
  · cases h
  · cases h
  · next l hrun =>
    split at h
    · cases h
    · next w ids hrefine => exact ⟨l, w, ids, hrun, hrefine, h⟩

/-- **A compilation that succeeds builds the files that are loaded**, and all are
    reachable. -/
theorem mem_keys_iff (h : (ofTextAfter reads fs ext file text).result = .ok lib) :
    ∃ l, Loading.run fs file text ⟨.empty ext, reads⟩ = (l, none) ∧
      ∀ p, (p ∈ l.workspace.registry.keys ↔ p ∈ lib.keys) ∧
        (p ∈ lib.keys ↔ p ∈ (lib.reachable file).map (·.file)) := by
  obtain ⟨l, w, ids, hrun, hrefine, hbuild⟩ := stages_of_ok h
  obtain ⟨hloaded, hfile⟩ := loaded_run (Loading.sourceOf_source fs file text)
    (Loading.source_self fs file text) hrun
  obtain ⟨hsettled, hkept⟩ := hloaded.settled_refineAll hrefine
  obtain ⟨d, hd⟩ := hkept hfile
  obtain ⟨hsystem, hcontains⟩ := system_of_build (l := { l with workspace := w }) hsettled hd hbuild
  have hregistry : w.registry = l.workspace.registry := by
    have := l.workspace.sameFiles_refineAll.registry
    rwa [hrefine] at this
  rw [hsystem.map_file_reachable]
  -- from the files loaded to those reachable, to those built, and back
  have hreach : ∀ p, l.Has p → p ∈ lib.reachableFiles file := by
    intro p hp
    rw [Library.mem_reachableFiles_iff hsystem.closed hcontains]
    have hleads := (Loading.has_iff hrun).1 hp
    clear hp
    induction hleads with
    | refl => exact .refl
    | tail _ hstep ih =>
      obtain ⟨raw, hraw, i, hi, rfl⟩ := hstep
      obtain ⟨m, hm⟩ := (contains_iff _ _).1 (hsystem.closed.contains_of_reaches hcontains ih)
      exact ih.tail (hsystem.imports_target hm hraw hi)
  have hbuilt : ∀ p, p ∈ lib.reachableFiles file → p ∈ lib.keys := fun p hp =>
    (Table.mem_keys_iff _ _).2 (Library.reaches_of_mem_reachableFiles hp).2
  have hback : ∀ p, p ∈ lib.keys → l.Has p := by
    intro p hp
    obtain ⟨m, hm⟩ := (Table.contains_iff _ _).1 ((Table.mem_keys_iff _ _).1 hp)
    obtain ⟨e, he, -⟩ := hsystem.built hm
    obtain ⟨x, hx, -⟩ := map_eq_some_iff.1 he
    obtain ⟨id, hid, -⟩ := bind_eq_some_iff.1 hx
    exact contains_of_find? (hregistry ▸ hid)
  refine ⟨l, hrun, fun p => ⟨?_, ?_⟩⟩
  · rw [Table.mem_keys_iff]
    exact ⟨fun hp => hbuilt p (hreach p hp), hback p⟩
  · exact ⟨fun hp => hreach p (hback p hp), hbuilt p⟩

end Compilation

/-- **Loading a file**, for every file system and every text.  It ends, as rules
    without a bound on the depth say.  If it succeeds, the files loaded are those that
    imports lead to, each but the first is read once, and every import of every draft
    finds its draft, before the passes and after them.  It stops for want of a file
    only if an import of a loaded draft leads to none.  A compilation that succeeds
    has loaded, built and lists the same files. -/
theorem Loading.run_closure (fs : FileSystem) (ext file text : String) (reads : List String) :
    (∀ r, run fs file text ⟨.empty ext, reads⟩ = r ↔ RunsFile fs file text ⟨.empty ext, reads⟩ r) ∧
    (∀ l, run fs file text ⟨.empty ext, reads⟩ = (l, none) →
      (∀ p, p ∈ l.workspace.registry.keys ↔ ReflTransGen (Leads ext (fs.source file text)) file p) ∧
      (∃ new, l.reads = reads ++ new ∧ l.workspace.registry.keys = file :: new ∧
        (file :: new).Nodup) ∧
      l.workspace.Complete ∧ ∀ w ids, l.workspace.refineAll = (w, .ok ids) → w.Linked) ∧
    (∀ l fault, run fs file text ⟨.empty ext, reads⟩ = (l, some (.fault fault)) →
      fault.code = .missingImport → ∃ p d i, l.workspace.draftAt? p = some d ∧ i ∈ d.imports ∧
        fs.exists (l.workspace.target d i) = false ∧
        fault = { cause := .importMissing i.path (l.workspace.target d i)
                  file := d.file, line := i.line }) ∧
    ∀ lib, (Compilation.ofTextAfter reads fs ext file text).result = .ok lib →
      ∃ l, run fs file text ⟨.empty ext, reads⟩ = (l, none) ∧
        ∀ p, (p ∈ l.workspace.registry.keys ↔ p ∈ lib.keys) ∧
          (p ∈ lib.keys ↔ p ∈ (lib.reachable file).map (·.file)) := by
  refine ⟨fun r => run_eq_iff (not_has_empty ext reads file), fun l h => ?_,
    fun l fault h hcode => exists_missing h hcode, fun lib h => Compilation.mem_keys_iff h⟩
  obtain ⟨hloaded, -⟩ :=
    Compilation.loaded_run (sourceOf_source fs file text) (source_self fs file text) h
  obtain ⟨new, hreads, hkeys⟩ := exists_reads h
  refine ⟨fun p => ?_, ⟨new, hreads, hkeys, hkeys ▸ l.workspace.registry.keys_nodup⟩,
    hloaded.complete, fun w ids hrefine => ?_⟩
  · rw [mem_keys_iff]
    exact has_iff h
  · have hext := l.workspace.sameFiles_refineAll.extension
    rw [hrefine, hloaded.hasRead.extension] at hext
    exact (hloaded.settled_refineAll hrefine).1.linked hext

/-- Three files that import each other, under several spellings of their paths. -/
def FileSystem.circle : FileSystem where
  texts := empty
    |>.insert "/a.def" "import \"b\""
    |>.insert "/b.def" "import \"./c.def\" import \"x/../c\""
    |>.insert "/c.def" "import \"a\" import \"/b.def\""
  unreadable := []
  refusal := id

theorem Loading.run_closure_circle :
    ∃ l, run .circle "/a.def" "import \"b\"" ⟨.empty ".def", []⟩ = (l, none) ∧
      l.reads = ["/b.def", "/c.def"] ∧
      ∀ p, p ∈ ["/a.def", "/b.def", "/c.def"] ↔
        ReflTransGen (Leads ".def" (FileSystem.circle.source "/a.def" "import \"b\""))
          "/a.def" p := by
  have hend : (run .circle "/a.def" "import \"b\"" ⟨.empty ".def", []⟩).2.isNone = true := by
    decide +kernel
  have hkeys : (run .circle "/a.def" "import \"b\"" ⟨.empty ".def", []⟩).1.workspace.registry.keys =
      ["/a.def", "/b.def", "/c.def"] := by decide +kernel
  rcases hrun : run .circle "/a.def" "import \"b\"" ⟨.empty ".def", []⟩ with ⟨l, x⟩
  rw [hrun] at hend hkeys
  obtain rfl : x = none := isNone_iff_eq_none.1 hend
  obtain ⟨hiff, ⟨new, hreads, hnew, -⟩, -⟩ :=
    (run_closure .circle ".def" "/a.def" "import \"b\"" []).2.1 l hrun
  simp only at hkeys
  rw [hkeys] at hiff hnew
  cases hnew
  exact ⟨l, rfl, hreads, hiff⟩

end MessageSchema
