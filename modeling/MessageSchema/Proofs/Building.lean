/-
  Building the models of a workspace.
-/
import MessageSchema.Proofs.Entities
import MessageSchema.Proofs.Passes

namespace MessageSchema

open List Table

/-! ## What a model depends on -/

namespace Model

variable {imports : Table String} {lib lib' : Library}

theorem importedModels_congr (h : ∀ g ∈ imports.values, lib.AgreesFrom lib' g) :
    Binder.importedModels lib imports = Binder.importedModels lib' imports := by
  have hfiles : imports.values.flatMap lib.reachableFiles =
      imports.values.flatMap lib'.reachableFiles :=
    flatMap_congr fun g hg => Library.reachableFiles_congr (h g hg)
  rw [Binder.importedModels, Binder.importedModels, ← hfiles]
  refine filterMap_congr fun k hk => ?_
  obtain ⟨g, hg, hk⟩ := mem_flatMap.1 (mem_eraseDups.1 hk)
  exact h g hg k (Library.reaches_of_mem_reachableFiles hk).1

theorem importedNamespaceFaults_congr (d : Draft) (own : List String)
    (h : ∀ g ∈ imports.values, lib.AgreesFrom lib' g) :
    importedNamespaceFaults lib d own imports = importedNamespaceFaults lib' d own imports := by
  refine congrArg Ownership.faults (foldl_ext _ _ _ fun o i hi => ?_)
  rw [Library.reachable_congr (h i.2 (mem_map_of_mem hi))]

/-- **The model of a draft depends on the models that its imports lead to.** -/
theorem ofDraft_congr (d : Draft) (h : ∀ g ∈ imports.values, lib.AgreesFrom lib' g) :
    ofDraft lib d imports = ofDraft lib' d imports := by
  simp only [ofDraft, importedModels_congr h, importedNamespaceFaults_congr d _ h]

end Model

/-! ## Workspaces to build from -/

namespace Workspace

/-- Every draft has the drafts attached that its imports lead to. -/
structure Wired (ext : String) (w : Workspace) : Prop where
  file : ∀ {p d}, w.draftAt? p = some d → d.file = p
  attached : ∀ {p d}, w.draftAt? p = some d → w.attachedTo d =
    (d.links ext).entries.filterMap fun e => (w.draftAt? e.2).map fun x => (e.1, x)
  present : ∀ {p d}, w.draftAt? p = some d → ∀ g ∈ (d.links ext).values, ∃ x, w.draftAt? g = some x

namespace Wired

variable {ext : String} {w : Workspace} (hw : w.Wired ext) {p : String} {d : Draft}
  (hd : w.draftAt? p = some d)
include hw hd

theorem mem_attachedTo {k : String} {x : Draft} (hx : (k, x) ∈ w.attachedTo d) :
    w.draftAt? x.file = some x ∧ x.file ∈ (d.links ext).values := by
  rw [hw.attached hd, mem_filterMap] at hx
  obtain ⟨⟨k', g⟩, hmem, hx⟩ := hx
  obtain ⟨y, hy, heq⟩ := Option.map_eq_some_iff.1 hx
  cases heq
  rw [hw.file hy]
  exact ⟨hy, mem_map_of_mem hmem⟩

theorem exists_mem_attachedTo {g : String} (hg : g ∈ (d.links ext).values) :
    ∃ k x, (k, x) ∈ w.attachedTo d ∧ x.file = g := by
  obtain ⟨x, hx⟩ := hw.present hd g hg
  obtain ⟨⟨k, _⟩, hmem, rfl⟩ := mem_map.1 hg
  refine ⟨k, x, ?_, hw.file hx⟩
  rw [hw.attached hd, mem_filterMap]
  exact ⟨_, hmem, by rw [hx]; rfl⟩

theorem foldl_attachedTo :
    (w.attachedTo d).foldl (fun t e => t.insert e.1 e.2.file) .empty = d.links ext := by
  have hmap : (w.attachedTo d).map (fun e => (e.1, e.2.file)) = (d.links ext).entries := by
    rw [hw.attached hd, map_filterMap]
    refine (filterMap_congr fun e he => ?_).trans filterMap_some
    obtain ⟨x, hx⟩ := hw.present hd e.2 (mem_map_of_mem he)
    rw [hx, Option.map_some, Option.map_some, hw.file hx]
  have hkeys : ((w.attachedTo d).map fun e => e.1).Nodup := by
    have := (d.links ext).nodup
    rw [← hmap, map_map] at this
    exact this
  refine ext_entries ?_
  rw [← hmap]
  exact (entries_foldl_insert hkeys fun _ _ => rfl).trans (nil_append _)

end Wired

end Workspace

namespace Build

variable {lib : Library} {f : String}

/-! ## Steps of a build -/

/-- How building a draft ends, if `build` builds what it imports. -/
inductive Outcome (w : Workspace) (build : Draft → Build → Build × Bool) (chain : List String)
    (d : Draft) (b : Build) : Build × Bool → Prop
  /-- its model is there already -/
  | present : b.library.contains d.file = true → Outcome w build chain d b (b, true)
  /-- it has failed before -/
  | again : Outcome w build chain d b (b, false)
  /-- it waits for itself -/
  | cycle (files : List String) : Outcome w build chain d b
      (b.fail d.file [{ cause := .importCycle files, file := d.file, line := 0 }], false)
  | unbuilt {b' : Build} {done : Table String} :
      (w.attachedTo d).foldl (addImport build) (b, .empty, true) = (b', done, false) →
      Outcome w build chain d b (b'.fail d.file [], false)
  | faulty {b' : Build} {done : Table String} {m : Model} {faults : List Fault} :
      (w.attachedTo d).foldl (addImport build) (b, .empty, true) = (b', done, true) →
      Model.ofDraft b'.library d done = (m, faults) →
      Outcome w build chain d b (b'.fail d.file faults, false)
  | built {b' : Build} {done : Table String} {m : Model} : b.library.contains d.file = false →
    d.file ∉ chain →
      (w.attachedTo d).foldl (addImport build) (b, .empty, true) = (b', done, true) →
      Model.ofDraft b'.library d done = (m, []) → Outcome w build chain d b
        ({ b' with library := b'.library.insert d.file m, events := b'.events ++ [.built d.file] },
        true)

variable {lib' : Library}

theorem outcome_file (w : Workspace) (n : Nat) (chain : List String) (d : Draft) (b : Build) :
    Outcome w (file w n (chain ++ [d.file])) chain d b (file w (n + 1) chain d b) := by
  rw [file]
  split
  · next hhas => exact .present hhas
  · next hhas =>
    split
    · exact .again
    · split
      · exact .cycle _
      · next hchain =>
        split
        · next hfold => exact .unbuilt hfold
        · next hfold =>
          split
          · next hm => exact .built (Bool.eq_false_iff.2 hhas) (by simpa using hchain) hfold hm
          · next _ hm => exact .faulty hfold hm

/-- What single steps do is what several do, from good states on: each ends in a good
    state and loses no model. -/
structure Steps (Good : Build → Prop) (R : Build → Build → Prop) : Prop where
  refl : ∀ {b}, Good b → R b b
  trans : ∀ {b b' b''}, R b b' → R b' b'' → R b b''
  good : ∀ {b b'}, R b b' → Good b'
  keeps : ∀ {b b' f}, R b b' → b.library.contains f = true → b'.library.contains f = true

theorem Steps.foldl_addImport {Good : Build → Prop} {R : Build → Build → Prop}
    (hsteps : Steps Good R) {build : Draft → Build → Build × Bool} {xs : List (String × Draft)}
    (hbuild : ∀ e ∈ xs, ∀ b, Good b → R b (build e.2 b).1 ∧
      ((build e.2 b).2 = true → (build e.2 b).1.library.contains e.2.file = true))
    {b b' : Build} {done done' : Table String} {ok ok' : Bool}
    (h : xs.foldl (addImport build) (b, done, ok) = (b', done', ok')) (hb : Good b) :
    R b b' ∧ (ok' = true → ok = true ∧ (∀ e ∈ xs, b'.library.contains e.2.file = true) ∧
      done' = xs.foldl (fun t e => t.insert e.1 e.2.file) done) := by
  induction xs generalizing b done ok with
  | nil =>
    cases h
    exact ⟨hsteps.refl hb, fun hok => ⟨hok, by simp, rfl⟩⟩
  | cons e xs ih =>
    have hone := hbuild e mem_cons_self b hb
    have hrest := fun x hx => hbuild x (mem_cons_of_mem _ hx)
    obtain ⟨k, x⟩ := e
    rw [foldl_cons, addImport] at h
    generalize build x b = r at h hone
    obtain ⟨b₁, ok₁⟩ := r
    obtain ⟨hone, hhas₁⟩ := hone
    cases ok₁ with
    | true =>
      obtain ⟨hrun, hall⟩ := ih hrest h (hsteps.good hone)
      refine ⟨hsteps.trans hone hrun, fun hok => ?_⟩
      obtain ⟨hok', hhas, hdone⟩ := hall hok
      exact ⟨hok', forall_mem_cons.2 ⟨hsteps.keeps hrun (hhas₁ rfl), hhas⟩, hdone⟩
    | false =>
      obtain ⟨hrun, hall⟩ := ih hrest h (hsteps.good hone)
      exact ⟨hsteps.trans hone hrun, fun hok => absurd (hall hok).1 Bool.false_ne_true⟩

/-! ## What has been built -/

/-- A library of models of drafts, with all that they import. -/
structure Sound (ext : String) (w : Workspace) (lib : Library) : Prop where
  built : ∀ {f m}, lib.find? f = some m → ∃ d, w.draftAt? f = some d ∧
    Model.ofDraft lib d (d.links ext) = (m, [])
  closed : lib.Closed

/-- One library has the models of another. -/
structure Within (lib lib' : Library) : Prop where
  find? : ∀ {f m}, lib.find? f = some m → lib'.find? f = some m

theorem Within.contains (h : Within lib lib') (hf : lib.contains f = true) :
    lib'.contains f = true := by
  obtain ⟨m, hm⟩ := (contains_iff _ _).1 hf
  exact contains_of_find? (h.find? hm)

theorem Within.agreesFrom (h : Within lib lib') (hl : lib.Closed) {g : String}
    (hg : lib.contains g = true) : lib.AgreesFrom lib' g := by
  intro k hk
  obtain ⟨m, hm⟩ := (contains_iff _ _).1 (hl.contains_of_reaches hg hk)
  rw [hm, h.find? hm]

theorem closed_insert (hl : lib.Closed) {m : Model}
    (hm : ∀ g ∈ m.imports.values, lib.contains g = true) : Library.Closed (lib.insert f m) := by
  have hkeep : ∀ {g}, lib.contains g = true → (lib.insert f m).contains g = true :=
    fun hg => contains_insert_iff.2 (.inr hg)
  rintro k g ⟨x, hx, hg⟩
  rw [find?_insert] at hx
  split at hx
  · cases hx
    exact hkeep (hm g hg)
  · exact hkeep (hl k g ⟨x, hx, hg⟩)

theorem within_insert (hf : lib.find? f = none) (m : Model) : Within lib (lib.insert f m) := by
  refine ⟨fun {k x} hk => ?_⟩
  have hne : k ≠ f := by rintro rfl; rw [hf] at hk; cases hk
  rw [find?_insert_of_ne _ hne, hk]

section
variable {ext : String} {w : Workspace} {chain : List String} {b : Build}

theorem Sound.insert (h : Sound ext w lib) {f : String} {d : Draft} {m : Model}
    (hf : lib.find? f = none) (hd : w.draftAt? f = some d)
    (himports : ∀ g ∈ (d.links ext).values, lib.contains g = true)
    (hm : Model.ofDraft lib d (d.links ext) = (m, [])) : Sound ext w (lib.insert f m) := by
  have hwithin := within_insert hf m
  -- models stay models, since nothing that they depend on changes
  have hcongr : ∀ {x : Draft}, (∀ g ∈ (x.links ext).values, lib.contains g = true) →
      Model.ofDraft (lib.insert f m) x (x.links ext) = Model.ofDraft lib x (x.links ext) :=
    fun hx => (Model.ofDraft_congr _ fun g hg => hwithin.agreesFrom h.closed (hx g hg)).symm
  have hmimports : m.imports = d.links ext := by rw [(Model.ofDraft_eq hm).1]
  refine ⟨fun {k x} hk => ?_, closed_insert h.closed (by rw [hmimports]; exact himports)⟩
  rw [find?_insert] at hk
  split at hk
  · next hkf =>
    cases hk
    subst hkf
    exact ⟨d, hd, (hcongr himports).trans hm⟩
  · obtain ⟨e, he, hx⟩ := h.built hk
    refine ⟨e, he, (hcongr fun g hg => h.closed k g ⟨x, hk, ?_⟩).trans hx⟩
    rw [(Model.ofDraft_eq hx).1]
    exact hg

/-- What building does: nothing is lost, and no file that waits is built. -/
structure Extends (ext : String) (w : Workspace) (chain : List String) (b b' : Build) : Prop where
  sound : Sound ext w b'.library
  within : Within b.library b'.library
  waiting : ∀ g ∈ chain, b'.library.contains g = true → b.library.contains g = true

theorem Extends.refl (h : Sound ext w b.library) : Extends ext w chain b b :=
  ⟨h, ⟨fun h => h⟩, fun _ _ h => h⟩

theorem Extends.trans {b' b'' : Build} (h : Extends ext w chain b b')
    (h' : Extends ext w chain b' b'') : Extends ext w chain b b'' :=
  ⟨h'.sound, ⟨fun hf => h'.within.find? (h.within.find? hf)⟩,
    fun g hg hb => h.waiting g hg (h'.waiting g hg hb)⟩

theorem Extends.fail {b' : Build} (h : Extends ext w chain b b') (f : String)
    (faults : List Fault) : Extends ext w chain b (b'.fail f faults) :=
  ⟨h.sound, h.within, h.waiting⟩

theorem Extends.insert {b₁ b' : Build} (h : Extends ext w chain b b₁) {f : String} {d : Draft}
    {m : Model} (hchain : f ∉ chain) (hf : b₁.library.find? f = none) (hd : w.draftAt? f = some d)
    (himports : ∀ g ∈ (d.links ext).values, b₁.library.contains g = true)
    (hm : Model.ofDraft b₁.library d (d.links ext) = (m, []))
    (hb' : b'.library = b₁.library.insert f m) :
    Extends ext w chain b b' ∧ b'.library.contains f = true := by
  have hwithin := within_insert hf m
  refine ⟨⟨hb' ▸ h.sound.insert hf hd himports hm, ⟨fun hk => ?_⟩, fun g hg hgb => ?_⟩, ?_⟩
  · rw [hb']
    exact hwithin.find? (h.within.find? hk)
  · have hne : g ≠ f := by rintro rfl; exact hchain hg
    rw [hb', Table.contains, Table.find?_insert_of_ne _ hne] at hgb
    exact h.waiting g hg hgb
  · rw [hb']
    exact contains_of_find? (find?_insert_self _ _ _)

theorem steps_extends (chain : List String) :
    Steps (fun b => Sound ext w b.library) (Extends ext w chain) where
  refl := .refl
  trans := .trans
  good h := h.sound
  keeps h := h.within.contains

theorem extends_file (hw : w.Wired ext) (n : Nat) (chain : List String) {f : String} {d : Draft}
    (hd : w.draftAt? f = some d) (hb : Sound ext w b.library) :
    Extends ext w chain b (file w n chain d b).1 ∧
      ((file w n chain d b).2 = true → (file w n chain d b).1.library.contains f = true) := by
  induction n generalizing chain f d b with
  | zero => exact ⟨.refl hb, fun h => nomatch h⟩
  | succ n ih =>
    obtain rfl := hw.file hd
    have hsteps : Steps _ (Extends ext w (chain ++ [d.file])) := steps_extends _
    have himport := fun (e : String × Draft) (he : e ∈ w.attachedTo d) (b : Build) hb =>
      ih (chain ++ [d.file]) (hw.mem_attachedTo hd he).1 (b := b) hb
    -- what waits for the imports of the draft waits for the draft
    have hshorten : ∀ {b₁}, Extends ext w (chain ++ [d.file]) b b₁ → Extends ext w chain b b₁ :=
        fun h =>
      ⟨h.sound, h.within, fun g hg => h.waiting g (mem_append_left _ hg)⟩
    have houtcome := outcome_file w n chain d b
    generalize file w (n + 1) chain d b = r at houtcome ⊢
    cases houtcome with
    | present hhas => exact ⟨.refl hb, fun _ => hhas⟩
    | again => exact ⟨.refl hb, fun h => nomatch h⟩
    | cycle files => exact ⟨(Extends.refl hb).fail _ _, fun h => nomatch h⟩
    | unbuilt hfold =>
      exact ⟨(hshorten (hsteps.foldl_addImport himport hfold hb).1).fail _ _, fun h => nomatch h⟩
    | faulty hfold =>
      exact ⟨(hshorten (hsteps.foldl_addImport himport hfold hb).1).fail _ _, fun h => nomatch h⟩
    | @built b₁ done m hnew hchain hfold hm =>
      obtain ⟨hext, hall⟩ := hsteps.foldl_addImport himport hfold hb
      obtain ⟨-, hhas, rfl⟩ := hall rfl
      rw [hw.foldl_attachedTo hd] at hm
      have himports : ∀ g ∈ (d.links ext).values, b₁.library.contains g = true := by
        intro g hg
        obtain ⟨k, x, hx, rfl⟩ := hw.exists_mem_attachedTo hd hg
        exact hhas (k, x) hx
      have hnone : b₁.library.find? d.file = none := by
        rw [← contains_eq_false_iff, Bool.eq_false_iff]
        exact fun h => Bool.eq_false_iff.1 hnew (hext.waiting d.file (by simp) h)
      exact And.imp_right (fun hhas _ => hhas)
        ((hshorten hext).insert hchain hnone hd himports hm rfl)

end

/-! ## Building what has a model -/

/-- A build without a fault, of models of a library. -/
structure Going (lib : Library) (b : Build) : Prop where
  faults : b.faults = []
  failed : b.failed = []
  closed : b.library.Closed
  within : Within b.library lib

theorem closed_empty : Library.Closed .empty := by
  rintro f g ⟨m, hm, -⟩
  cases hm

theorem Going.empty (lib : Library) : Going lib { library := .empty } :=
  ⟨rfl, rfl, closed_empty, ⟨by simp⟩⟩

theorem Going.insert {b b' : Build} (h : Going lib b) {m : Model} (hm : lib.find? f = some m)
    (himports : ∀ g ∈ m.imports.values, b.library.contains g = true)
    (hfaults : b'.faults = b.faults) (hfailed : b'.failed = b.failed)
    (hb' : b'.library = b.library.insert f m) : Going lib b' := by
  refine ⟨hfaults.trans h.faults, hfailed.trans h.failed, hb' ▸ closed_insert h.closed himports,
    ⟨fun {k x} hk => ?_⟩⟩
  rw [hb', find?_insert] at hk
  split at hk
  · next hkf =>
    cases hk
    rw [hkf, hm]
  · exact h.within.find? hk

section
variable {ext : String} {w : Workspace} {lib : Library}

theorem foldl_addImport_eq_true {build : Draft → Build → Build × Bool} {xs : List (String × Draft)}
    (hbuild : ∀ e ∈ xs, ∀ b, Going lib b → ∃ b', build e.2 b = (b', true) ∧ Going lib b' ∧
      Within b.library b'.library ∧ b'.library.contains e.2.file = true)
    {b : Build} (hb : Going lib b) (done : Table String) :
    ∃ b', xs.foldl (addImport build) (b, done, true) =
        (b', xs.foldl (fun t e => t.insert e.1 e.2.file) done, true) ∧ Going lib b' ∧
      Within b.library b'.library ∧ ∀ e ∈ xs, b'.library.contains e.2.file = true := by
  induction xs generalizing b done with
  | nil => exact ⟨b, rfl, hb, ⟨fun h => h⟩, by simp⟩
  | cons e xs ih =>
    obtain ⟨b₁, hone, hb₁, hwithin₁, hhas₁⟩ := hbuild e mem_cons_self b hb
    obtain ⟨b', hrest, hb', hwithin, hhas⟩ :=
      ih (fun x hx => hbuild x (mem_cons_of_mem _ hx)) hb₁ (done.insert e.1 e.2.file)
    refine ⟨b', ?_, hb', ⟨fun h => hwithin.find? (hwithin₁.find? h)⟩,
      forall_mem_cons.2 ⟨hwithin.contains hhas₁, hhas⟩⟩
    rw [foldl_cons, foldl_cons, ← hrest, addImport, hone]

/-- **A draft is built** if a library has models of it and of all that it imports, and
    the imports descend. -/
theorem file_eq_true (hw : w.Wired ext) {rank : String → Nat}
    (hrank : ∀ {f d}, w.draftAt? f = some d → ∀ g ∈ (d.links ext).values, rank g < rank f)
    (hlib : ∀ {f d}, w.draftAt? f = some d → ∃ m, lib.find? f = some m ∧
      Model.ofDraft lib d (d.links ext) = (m, []))
    {n : Nat} (chain : List String) {f : String} {d : Draft} (hd : w.draftAt? f = some d)
    (hn : rank f < n) (hchain : ∀ g ∈ chain, rank f < rank g) {b : Build} (hb : Going lib b) :
    ∃ b', file w n chain d b = (b', true) ∧ Going lib b' ∧ Within b.library b'.library ∧
      b'.library.contains f = true := by
  induction n generalizing chain f d b with
  | zero => omega
  | succ n ih =>
    have hfile := hw.file hd
    rw [file, hfile]
    split
    · next hhas => exact ⟨b, rfl, hb, ⟨fun h => h⟩, hhas⟩
    · next hhas =>
      have hnot : chain.contains f = false := by
        simp only [contains_eq_mem, decide_eq_false_iff_not]
        exact fun hmem => absurd (hchain f hmem) (Nat.lt_irrefl _)
      have hfailed : b.failed.contains f = false := by rw [hb.failed]; rfl
      have himports : ∀ e ∈ w.attachedTo d, ∀ b, Going lib b → ∃ b',
          file w n (chain ++ [f]) e.2 b = (b', true) ∧ Going lib b' ∧
            Within b.library b'.library ∧ b'.library.contains e.2.file = true := by
        intro e he b hb
        obtain ⟨hx, hmem⟩ := hw.mem_attachedTo hd he
        have hlt := hrank hd _ hmem
        refine ih _ hx (by omega) (fun g hg => ?_) hb
        rcases mem_append.1 hg with hg | hg
        · exact hlt.trans (hchain g hg)
        · rwa [mem_singleton.1 hg]
      obtain ⟨b₁, hfold, hb₁, hwithin₁, hhas₁⟩ := foldl_addImport_eq_true himports hb .empty
      rw [hw.foldl_attachedTo hd] at hfold
      have hlinks : ∀ g ∈ (d.links ext).values, b₁.library.contains g = true := by
        intro g hg
        obtain ⟨k, x, hx, rfl⟩ := hw.exists_mem_attachedTo hd hg
        exact hhas₁ (k, x) hx
      obtain ⟨m, hm, hmodel⟩ := hlib hd
      -- the library so far has the models that the imports lead to
      have hmodel₁ : Model.ofDraft b₁.library d (d.links ext) = (m, []) :=
        (Model.ofDraft_congr d fun g hg => hb₁.within.agreesFrom hb₁.closed
          (hlinks g hg)).trans hmodel
      have hmimports : m.imports = d.links ext := by rw [(Model.ofDraft_eq hmodel).1]
      simp only [hfailed, hnot, Bool.false_eq_true, if_false, hfold, hmodel₁]
      refine ⟨_, rfl, hb₁.insert hm (by rw [hmimports]; exact hlinks) rfl rfl rfl,
        ⟨fun {k x} hk => ?_⟩, contains_of_find? (find?_insert_self _ _ _)⟩
      have hne : k ≠ f := by rintro rfl; exact hhas (contains_of_find? hk)
      rw [find?_insert_of_ne _ hne]
      exact hwithin₁.find? hk

end

/-! ## Whole builds -/

section
variable {ext : String} {w : Workspace} (hw : w.Wired ext) {f : String} {d : Draft}
  (hd : w.draftAt? f = some d)
include hw hd

/-- **A build that succeeds** gives models of drafts, that of its own draft among them. -/
theorem sound_run {events : List Event} (h : run w .empty d = (lib, events, .ok ())) :
    Sound ext w lib ∧ lib.contains f = true := by
  have hempty : Sound ext w .empty := ⟨by simp, closed_empty⟩
  obtain ⟨hext, hhas⟩ :=
    extends_file hw (w.drafts.length + 1) [] hd (b := { library := .empty }) hempty
  rw [run] at h
  generalize file w (w.drafts.length + 1) [] d { library := .empty } = r at h hext hhas
  obtain ⟨b, ok⟩ := r
  simp only at h
  split at h
  · next hok =>
    cases h
    exact ⟨hext.sound, hhas (Bool.and_eq_true_iff.1 hok).1⟩
  · cases h

/-- **A build succeeds** if a library has models of its draft and of all that it
    imports. -/
theorem run_eq_ok {rank : String → Nat}
    (hrank : ∀ {f d}, w.draftAt? f = some d → ∀ g ∈ (d.links ext).values, rank g < rank f)
    (hlt : ∀ {f d}, w.draftAt? f = some d → rank f < w.drafts.length)
    (hlib : ∀ {f d}, w.draftAt? f = some d → ∃ m, lib.find? f = some m ∧
      Model.ofDraft lib d (d.links ext) = (m, [])) :
    ∃ lib' events, run w .empty d = (lib', events, .ok ()) ∧ lib'.Closed ∧ Within lib' lib ∧
      lib'.contains f = true := by
  obtain ⟨b, hfile, hb, -, hhas⟩ := file_eq_true hw hrank hlib [] hd
    (Nat.lt_succ_of_lt (hlt hd)) (by simp) (Going.empty lib)
  refine ⟨b.library, b.events, ?_, hb.closed, hb.within, hhas⟩
  rw [run, hfile]
  simp [hb.faults]

end

end Build

end MessageSchema
