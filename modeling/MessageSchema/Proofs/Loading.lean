/-
  What loading a file gives.

  `Loading.Runs fs d is l r` says how loading the imports `is` of a draft ends,
  by rules that mention no depth.  A derivation is finite, so what has one comes
  to an end, however the files import each other.

  * `run_eq_iff`: loading follows the rules, within the bound on its depth;
  * `Runs.grown`, `Runs.loads`, `Runs.stays`, `Runs.eq_none`: what a derivation
    does to the files loaded, and when it succeeds.
-/
import MessageSchema.Proofs.Reading
import MessageSchema.Proofs.Tables
import MessageSchema.Workspace.Loading

namespace MessageSchema

open List Draft Table Workspace

/-- The drafts of a workspace are those read of some texts. -/
structure Workspace.HasRead (ext : String) (source : String → Option String) (w : Workspace) :
    Prop where
  extension : w.extension = ext
  draft : ∀ {p id}, w.registry.find? p = some id →
    ∃ d, readFrom source p = some d ∧ w.draft? id = some d

namespace Workspace.HasRead

variable {ext : String} {source : String → Option String} {w : Workspace}

theorem note (h : w.HasRead ext source) (e : Event) : (w.note e).HasRead ext source :=
  ⟨h.extension, h.draft⟩

theorem insert (h : w.HasRead ext source) {p : String} {d : Draft}
    (hd : readFrom source p = some d) : (w.insert p d).HasRead ext source := by
  refine ⟨h.extension, fun {q id} hq => ?_⟩
  rw [Workspace.insert, find?_insert] at hq
  split at hq
  · next hqp =>
    cases hq
    subst hqp
    exact ⟨d, hd, by simp [Workspace.insert, Workspace.draft?]⟩
  · obtain ⟨x, hx, hid⟩ := h.draft hq
    have hlt : id < w.drafts.length := (List.getElem?_eq_some_iff.1 hid).1
    exact ⟨x, hx, (getElem?_append_left hlt).trans hid⟩

theorem target (h : w.HasRead ext source) {p : String} {d : Draft} (hd : readFrom source p = some d)
    (i : Import) : w.target d i = Path.ofImport ext p i.path := by
  rw [Workspace.target, h.extension, (asRead_of_readFrom hd).2.1]

end Workspace.HasRead

namespace Loading

/-- Whether the draft of a file has been loaded. -/
def Has (l : Loading) (p : String) : Prop := l.workspace.registry.contains p = true

theorem has_insert {l : Loading} {path p : String} {d : Draft} :
    Has { l with workspace := l.workspace.insert path d } p ↔ p = path ∨ l.Has p :=
  contains_insert_iff

/-- Notes that a file is read. -/
def read (l : Loading) (path : String) : Loading := { l with reads := l.reads ++ [path] }

/-- Starts on a file. -/
def enter (l : Loading) (path : String) : Loading :=
  { l with workspace := l.workspace.note (.loading path) }

/-- Starts on a file and adds its draft. -/
def add (l : Loading) (path : String) (d : Draft) : Loading :=
  { l with workspace := (l.workspace.note (.loading path)).insert path d }

/-- Loading the imports of a draft one by one: what is left and how it ends. -/
inductive Runs (fs : FileSystem) :
    Draft → List Import → Loading → Loading × Option Interruption → Prop
  | done {d l} : Runs fs d [] l (l, none)
  | known {d i is l r} : l.Has (l.workspace.target d i) → Runs fs d is l r → Runs fs d (i :: is) l r
  | missing {d i is l path} : l.workspace.target d i = path → ¬ l.Has path →
    fs.exists path = false →
      Runs fs d (i :: is) l
        (l, some (.fault { cause := .importMissing i.path path, file := d.file, line := i.line }))
  | unreadable {d i is l path} : l.workspace.target d i = path → ¬ l.Has path →
    fs.exists path = true → fs.texts.find? path = none →
    Runs fs d (i :: is) l (l.read path, some (.unreadable (fs.refusal path)))
  | faulty {d i is l path text fault} : l.workspace.target d i = path → ¬ l.Has path →
      fs.texts.find? path = some text → Draft.read path text = .error fault →
      Runs fs d (i :: is) l ((l.read path).enter path, some (.fault fault))
  | stopped {d i is l path text e l' x} : l.workspace.target d i = path → ¬ l.Has path →
      fs.texts.find? path = some text → Draft.read path text = .ok e →
      Runs fs e e.imports ((l.read path).add path e) (l', some x) →
      Runs fs d (i :: is) l (l', some x)
  | loaded {d i is l path text e l' r} : l.workspace.target d i = path → ¬ l.Has path →
      fs.texts.find? path = some text → Draft.read path text = .ok e →
      Runs fs e e.imports ((l.read path).add path e) (l', none) → Runs fs d is l' r →
      Runs fs d (i :: is) l r

/-- Loading a file with a text and all that it imports. -/
inductive RunsFile (fs : FileSystem) (path text : String) (l : Loading) :
    Loading × Option Interruption → Prop
  | faulty {fault} : Draft.read path text = .error fault →
      RunsFile fs path text l (l.enter path, some (.fault fault))
  | read {d r} : Draft.read path text = .ok d → Runs fs d d.imports (l.add path d) r →
      RunsFile fs path text l r

/-! ## What is kept -/

variable {l : Loading}

theorem has_add {path p : String} {d : Draft} : (l.add path d).Has p ↔ p = path ∨ l.Has p :=
  has_insert (l := l.enter path)

/-- Nothing that was loaded is lost. -/
structure Grown (l l' : Loading) : Prop where
  extension : l'.workspace.extension = l.workspace.extension
  find? : ∀ {p id}, l.workspace.registry.find? p = some id → l'.workspace.registry.find? p = some id
  draft? : ∀ {id d}, l.workspace.draft? id = some d → l'.workspace.draft? id = some d

theorem Grown.refl (l : Loading) : l.Grown l := ⟨rfl, fun h => h, fun h => h⟩

theorem Grown.trans {l' l'' : Loading} (h : l.Grown l') (h' : l'.Grown l'') : l.Grown l'' :=
  ⟨h'.extension.trans h.extension, fun hp => h'.find? (h.find? hp),
    fun hd => h'.draft? (h.draft? hd)⟩

theorem Grown.has {l' : Loading} (h : l.Grown l') {p : String} (hp : l.Has p) : l'.Has p := by
  obtain ⟨id, hid⟩ := (contains_iff _ _).1 hp
  exact contains_of_find? (h.find? hid)

theorem Grown.keys_subset {l' : Loading} (h : l.Grown l') :
    l.workspace.registry.keys ⊆ l'.workspace.registry.keys := by
  intro p hp
  rw [mem_keys_iff] at hp ⊢
  exact h.has hp

theorem grown_read (l : Loading) (path : String) : l.Grown (l.read path) :=
  ⟨rfl, fun h => h, fun h => h⟩

theorem grown_add {path : String} (h : ¬ l.Has path) (d : Draft) : l.Grown (l.add path d) := by
  refine ⟨rfl, fun {p id} hp => ?_, fun {id e} he => ?_⟩
  · have hne : p ≠ path := by
      rintro rfl
      exact h (contains_of_find? hp)
    exact (find?_insert_of_ne _ hne _).trans hp
  · exact (getElem?_append_left (List.getElem?_eq_some_iff.1 he).1).trans he

theorem grown_read_add {path : String} (h : ¬ l.Has path) (d : Draft) :
    l.Grown ((l.read path).add path d) :=
  (grown_read l path).trans (grown_add (l := l.read path) h d)

section
variable {fs : FileSystem} {d : Draft} {is : List Import} {l : Loading}
  {r : Loading × Option Interruption}

/-- **Loading loses nothing**, however it ends. -/
theorem Runs.grown (h : Runs fs d is l r) : l.Grown r.1 := by
  induction h with
  | done => exact .refl _
  | known _ _ ih => exact ih
  | missing => exact .refl _
  | unreadable => exact grown_read _ _
  | faulty => exact ⟨rfl, fun h => h, fun h => h⟩
  | stopped _ hnew _ _ _ ih => exact (grown_read_add hnew _).trans ih
  | loaded _ hnew _ _ _ _ ih₁ ih₂ => exact ((grown_read_add hnew _).trans ih₁).trans ih₂

end

/-! ## The bound on the depth -/

section
variable {fs : FileSystem} {l : Loading} {path : String} {n : Nat}

theorem load_succ (n : Nat) (path text : String) (l : Loading) :
    load fs (n + 1) path text l = match Draft.read path text with
      | .error fault => (l.enter path, some (.fault fault))
      | .ok d => loadImports fs (load fs n) d d.imports (l.add path d) := rfl

section
variable (load : String → String → Loading → Loading × Option Interruption) {d : Draft} {i : Import}
  (is : List Import) {l : Loading} {path : String} (htarget : l.workspace.target d i = path)
include htarget

theorem loadImports_known (hhas : l.Has path) :
    loadImports fs load d (i :: is) l = loadImports fs load d is l := by
  unfold Has at hhas
  rw [loadImports, htarget, if_pos hhas]

theorem loadImports_missing (hnew : ¬ l.Has path) (hmissing : fs.exists path = false) :
    loadImports fs load d (i :: is) l =
      (l,
        some (.fault { cause := .importMissing i.path path, file := d.file, line := i.line })) := by
  unfold Has at hnew
  rw [loadImports, htarget, if_neg hnew, hmissing]
  rfl

theorem loadImports_unreadable (hnew : ¬ l.Has path) (hexists : fs.exists path = true)
    (htext : fs.texts.find? path = none) :
    loadImports fs load d (i :: is) l = (l.read path, some (.unreadable (fs.refusal path))) := by
  unfold Has at hnew
  rw [loadImports, htarget, if_neg hnew, if_pos hexists]
  simp only [htext]
  rfl

theorem loadImports_new (hnew : ¬ l.Has path) {text : String}
    (htext : fs.texts.find? path = some text) :
    loadImports fs load d (i :: is) l = match load path text (l.read path) with
      | (l, some e) => (l, some e)
      | (l, none) => loadImports fs load d is l := by
  have hexists : fs.exists path = true := by
    rw [FileSystem.exists, contains_of_find? htext]
    rfl
  unfold Has at hnew
  rw [loadImports, htarget, if_neg hnew, if_pos hexists]
  simp only [htext]
  rfl

end

theorem unlisted_new {text : String} (hnew : ¬ l.Has path) (htext : fs.texts.find? path = some text)
    (hn : unlisted fs.texts.keys l.workspace.registry.keys ≤ n) :
    unlisted fs.texts.keys (path :: l.workspace.registry.keys) < n := by
  have hlt := unlisted_lt (subset_cons_self path _) (mem_keys_of_find? htext)
    (fun h => hnew ((mem_keys_iff _ _).1 h)) mem_cons_self
  omega

theorem unlisted_add_le (hn : unlisted fs.texts.keys (path :: l.workspace.registry.keys) < n + 1)
    (d : Draft) : unlisted fs.texts.keys (l.add path d).workspace.registry.keys ≤ n := by
  have hsub : path :: l.workspace.registry.keys ⊆ (l.add path d).workspace.registry.keys := by
    intro p hp
    rw [mem_cons, mem_keys_iff] at hp
    exact (mem_keys_iff _ _).2 (has_add.2 hp)
  have hmono : unlisted fs.texts.keys (l.add path d).workspace.registry.keys ≤ _ :=
    unlisted_mono hsub
  omega

theorem Runs.loadImports_eq {d : Draft} {is : List Draft.Import} {r : Loading × Option Interruption}
    (h : Runs fs d is l r) (hn : unlisted fs.texts.keys l.workspace.registry.keys ≤ n) :
    loadImports fs (load fs n) d is l = r := by
  induction h generalizing n with
  | done => rfl
  | known hhas _ ih =>
    rw [loadImports_known _ _ rfl hhas]
    exact ih hn
  | missing htarget hnew hmissing => exact loadImports_missing _ _ htarget hnew hmissing
  | unreadable htarget hnew hexists htext =>
    exact loadImports_unreadable _ _ htarget hnew hexists htext
  | faulty htarget hnew htext hread =>
    have hlt := unlisted_new hnew htext hn
    obtain ⟨n, rfl⟩ := Nat.exists_eq_add_one_of_ne_zero (Nat.ne_zero_of_lt hlt)
    rw [loadImports_new _ _ htarget hnew htext, load_succ, hread]
  | @stopped _ _ _ l path _ e _ _ htarget hnew htext hread _ ih =>
    have hlt := unlisted_new hnew htext hn
    obtain ⟨n, rfl⟩ := Nat.exists_eq_add_one_of_ne_zero (Nat.ne_zero_of_lt hlt)
    have hfile := ih (unlisted_add_le (l := l.read path) hlt e)
    rw [loadImports_new _ _ htarget hnew htext, load_succ, hread]
    simp only [hfile]
  | @loaded _ _ _ l path _ e _ _ htarget hnew htext hread hrun _ ih₁ ih₂ =>
    have hlt := unlisted_new hnew htext hn
    have hgrown := (grown_read_add hnew e).trans hrun.grown
    have hrest := ih₂ ((unlisted_mono hgrown.keys_subset).trans hn)
    obtain ⟨n, rfl⟩ := Nat.exists_eq_add_one_of_ne_zero (Nat.ne_zero_of_lt hlt)
    have hfile := ih₁ (unlisted_add_le (l := l.read path) hlt e)
    rw [loadImports_new _ _ htarget hnew htext, load_succ, hread]
    simp only [hfile]
    exact hrest

/-- What is computed for imports follows the rules, if that is so for files. -/
theorem runs_loadImports
    (hload : ∀ {path text l}, ¬ l.Has path →
      unlisted fs.texts.keys (path :: l.workspace.registry.keys) < n →
      RunsFile fs path text l (load fs n path text l)) (d : Draft) (is : List Draft.Import)
    (hn : unlisted fs.texts.keys l.workspace.registry.keys ≤ n) :
    Runs fs d is l (loadImports fs (load fs n) d is l) := by
  induction is generalizing l with
  | nil => exact .done
  | cons i is ih =>
    obtain ⟨path, htarget⟩ : ∃ path, l.workspace.target d i = path := ⟨_, rfl⟩
    by_cases hnew : l.Has path
    · rw [loadImports_known _ _ htarget hnew]
      exact .known (htarget ▸ hnew) (ih hn)
    cases hexists : fs.exists path with
    | false =>
      rw [loadImports_missing _ _ htarget hnew hexists]
      exact .missing htarget hnew hexists
    | true =>
      cases htext : fs.texts.find? path with
      | none =>
        rw [loadImports_unreadable _ _ htarget hnew hexists htext]
        exact .unreadable htarget hnew hexists htext
      | some text =>
        have hfile := @hload path text (l.read path) hnew (unlisted_new hnew htext hn)
        rw [loadImports_new _ _ htarget hnew htext]
        generalize load fs n path text (l.read path) = r at hfile
        cases hfile with
        | faulty hread => exact .faulty htarget hnew htext hread
        | @read e _ hread hrun =>
          obtain ⟨l', x⟩ := r
          cases x with
          | some x => exact .stopped htarget hnew htext hread hrun
          | none =>
            have hgrown := (grown_read_add hnew e).trans hrun.grown
            exact .loaded htarget hnew htext hread hrun
              (ih ((unlisted_mono hgrown.keys_subset).trans hn))

theorem runsFile_load {text : String} (hnew : ¬ l.Has path)
    (hn : unlisted fs.texts.keys (path :: l.workspace.registry.keys) < n) :
    RunsFile fs path text l (load fs n path text l) := by
  induction n generalizing path text l with
  | zero => omega
  | succ n ih =>
    rw [load_succ]
    cases hread : Draft.read path text with
    | error fault => exact .faulty hread
    | ok d => exact .read hread (runs_loadImports ih d d.imports (unlisted_add_le hn d))

/-- **Loading a file ends as the rules say**: the bound on its depth is not reached. -/
theorem run_eq_iff {text : String} (hnew : ¬ l.Has path) {r : Loading × Option Interruption} :
    run fs path text l = r ↔ RunsFile fs path text l r := by
  have hn : unlisted fs.texts.keys (path :: l.workspace.registry.keys) < fs.texts.size + 2 := by
    have := unlisted_keys_le fs.texts (path :: l.workspace.registry.keys)
    omega
  constructor
  · rintro rfl
    exact runsFile_load hnew hn
  · intro h
    cases h with
    | faulty hread => rw [run, load_succ, hread]
    | read hread hrun =>
      rw [run, load_succ, hread]
      exact hrun.loadImports_eq (unlisted_add_le hn _)

end

/-! ## What has been loaded -/

/-- What loading does: the files that are new have been read, and have all that they
    import. -/
structure Loads (ext : String) (source : String → Option String) (l l' : Loading) : Prop where
  hasRead : l'.workspace.HasRead ext source
  imports : ∀ {p}, l'.Has p → ¬ l.Has p → ∀ {d}, readFrom source p = some d →
    ∀ i ∈ d.imports, l'.Has (Path.ofImport ext p i.path)

/-- The texts are those of the file system, but for the file that is compiled. -/
def SourceOf (fs : FileSystem) (root : String) (source : String → Option String) : Prop :=
  ∀ p, p ≠ root → source p = fs.texts.find? p

/-- Only files of a set have been loaded. -/
structure Stays (ext : String) (P : String → Prop) (l : Loading) : Prop where
  extension : l.workspace.extension = ext
  has : ∀ p, l.Has p → P p

theorem Stays.add {ext : String} {P : String → Prop} (h : l.Stays ext P) {path : String}
    (hpath : P path) (d : Draft) : (l.add path d).Stays ext P := by
  refine ⟨h.extension, fun p hp => ?_⟩
  rcases has_add.1 hp with rfl | hp
  · exact hpath
  · exact h.has p hp

/-- With every file but one, a set holds all that it imports. -/
def Keeps (ext : String) (fs : FileSystem) (root : String) (P : String → Prop) : Prop :=
  ∀ p text e, P p → p ≠ root → fs.texts.find? p = some text → Draft.read p text = .ok e →
    ∀ i ∈ e.imports, P (Path.ofImport ext p i.path)

section
variable {ext root : String} {source : String → Option String} {fs : FileSystem} {d : Draft}
  {is : List Import} {l : Loading} {r : Loading × Option Interruption}

theorem Loads.of_add {path : String} {l' : Loading} (h : Loads ext source (l.add path d) l')
    (hread : readFrom source path = some d)
    (himports : ∀ i ∈ d.imports, l'.Has (Path.ofImport ext path i.path)) :
    Loads ext source l l' := by
  refine ⟨h.hasRead, fun {p} hp hpl e he i hi => ?_⟩
  -- the file itself was there before its imports were loaded
  by_cases hpp : p = path
  · subst hpp
    rw [hread] at he
    cases he
    exact himports i hi
  · exact h.imports hp (fun h => (has_add.1 h).elim hpp hpl) he i hi

/-- **Loading that succeeds has read what is new**, with all that it imports. -/
theorem Runs.loads (hs : SourceOf fs root source) (h : Runs fs d is l r) (hr : r.2 = none)
    (hroot : l.Has root) (hl : l.workspace.HasRead ext source) :
    Loads ext source l r.1 ∧ ∀ i ∈ is, r.1.Has (Path.ofImport ext d.file i.path) := by
  induction h with
  | done => exact ⟨⟨hl, fun hp hn => absurd hp hn⟩, by simp⟩
  | known hhas hrun ih =>
    obtain ⟨hloads, hall⟩ := ih hr hroot hl
    rw [target, hl.extension] at hhas
    exact ⟨hloads, forall_mem_cons.2 ⟨hrun.grown.has hhas, hall⟩⟩
  | missing | unreadable | faulty | stopped => cases hr
  | @loaded d i is l path text e l' r htarget hnew htext hread hrun hrest ih₁ ih₂ =>
    have hne : path ≠ root := fun heq => hnew (heq ▸ hroot)
    have hfrom : Draft.readFrom source path = some e :=
      Draft.readFrom_eq_some_iff.2 ⟨text, (hs path hne).trans htext, hread⟩
    have hroot₁ := (grown_read_add hnew e).has hroot
    obtain ⟨hloads₁, hall₁⟩ := ih₁ rfl hroot₁ ((hl.note (.loading path)).insert hfrom)
    rw [(Draft.read_asRead hread).2.1] at hall₁
    have hloads₁ : Loads ext source (l.read path) l' := hloads₁.of_add hfrom hall₁
    obtain ⟨hloads₂, hall₂⟩ := ih₂ hr (hrun.grown.has hroot₁) hloads₁.hasRead
    refine ⟨⟨hloads₂.hasRead, fun {p} hp hn f hf j hj => ?_⟩, forall_mem_cons.2 ⟨?_, hall₂⟩⟩
    · by_cases hp' : l'.Has p
      · exact hrest.grown.has (hloads₁.imports hp' hn hf j hj)
      · exact hloads₂.imports hp hp' hf j hj
    · rw [target, hl.extension] at htarget
      rw [htarget]
      exact hrest.grown.has (hrun.grown.has (has_add.2 (.inl rfl)))

section
variable {P : String → Prop}

theorem Stays.next (hP : Keeps ext fs root P) (hl : l.Stays ext P) (hroot : l.Has root) {i : Import}
    (hi : P (Path.ofImport ext d.file i.path)) {path text : String} {e : Draft}
    (htarget : l.workspace.target d i = path) (hnew : ¬ l.Has path)
    (htext : fs.texts.find? path = some text) (hread : Draft.read path text = .ok e) :
    ((l.read path).add path e).Stays ext P ∧ ∀ j ∈ e.imports,
      P (Path.ofImport ext e.file j.path) := by
  rw [target, hl.extension] at htarget
  rw [htarget] at hi
  have hne : path ≠ root := fun heq => hnew (heq ▸ hroot)
  refine ⟨Stays.add (l := l.read path) ⟨hl.extension, hl.has⟩ hi e, ?_⟩
  rw [(read_asRead hread).2.1]
  exact hP path text e hi hne htext hread

/-- **Only files of a set are loaded** that holds, with every file, all that it imports. -/
theorem Runs.stays (hP : Keeps ext fs root P) (h : Runs fs d is l r) (hroot : l.Has root)
    (hl : l.Stays ext P) (his : ∀ i ∈ is, P (Path.ofImport ext d.file i.path)) :
    r.1.Stays ext P := by
  induction h with
  | done => exact hl
  | known _ _ ih => exact ih hroot hl fun i hi => his i (mem_cons_of_mem _ hi)
  | missing => exact hl
  | unreadable | faulty => exact ⟨hl.extension, hl.has⟩
  | stopped htarget hnew htext hread _ ih =>
    obtain ⟨hl₁, himports⟩ := hl.next hP hroot (his _ mem_cons_self) htarget hnew htext hread
    exact ih ((grown_read_add hnew _).has hroot) hl₁ himports
  | @loaded _ _ _ _ _ _ e _ _ htarget hnew htext hread hrun _ ih₁ ih₂ =>
    obtain ⟨hl₁, himports⟩ := hl.next hP hroot (his _ mem_cons_self) htarget hnew htext hread
    have hroot₁ := (grown_read_add hnew e).has hroot
    exact ih₂ (hrun.grown.has hroot₁) (ih₁ hroot₁ hl₁ himports)
      fun i hi => his i (mem_cons_of_mem _ hi)

/-- Files that can be read, with all that they import. -/
def Readable (ext : String) (fs : FileSystem) (P : String → Prop) : Prop :=
  ∀ p, P p → ∃ text d, fs.texts.find? p = some text ∧ Draft.read p text = .ok d ∧
    ∀ i ∈ d.imports, P (Path.ofImport ext p i.path)

theorem Readable.keeps (h : Readable ext fs P) (root : String) : Keeps ext fs root P := by
  intro p text e hp _ htext hread
  obtain ⟨text', d, htext', hread', himports⟩ := h p hp
  rw [htext] at htext'
  cases htext'
  rw [hread] at hread'
  cases hread'
  exact himports

/-- **Loading files that can be read succeeds.** -/
theorem Runs.eq_none (hP : Readable ext fs P) (h : Runs fs d is l r) (hroot : l.Has root)
    (hl : l.Stays ext P) (his : ∀ i ∈ is, P (Path.ofImport ext d.file i.path)) : r.2 = none := by
  have hkeeps := hP.keeps root
  induction h with
  | done => rfl
  | known _ _ ih => exact ih hroot hl fun i hi => his i (mem_cons_of_mem _ hi)
  | missing htarget _ hexists =>
    rw [target, hl.extension] at htarget
    obtain ⟨text, -, htext, -⟩ := hP _ (htarget ▸ his _ mem_cons_self)
    simp [FileSystem.exists, contains_of_find? htext] at hexists
  | unreadable htarget _ _ hnone =>
    rw [target, hl.extension] at htarget
    obtain ⟨text, -, htext, -⟩ := hP _ (htarget ▸ his _ mem_cons_self)
    rw [hnone] at htext
    cases htext
  | faulty htarget _ htext hread =>
    rw [target, hl.extension] at htarget
    obtain ⟨text, e, htext', hread', -⟩ := hP _ (htarget ▸ his _ mem_cons_self)
    rw [htext] at htext'
    cases htext'
    rw [hread] at hread'
    cases hread'
  | stopped htarget hnew htext hread _ ih =>
    obtain ⟨hl₁, himports⟩ := hl.next hkeeps hroot (his _ mem_cons_self) htarget hnew htext hread
    cases ih ((grown_read_add hnew _).has hroot) hl₁ himports
  | @loaded _ _ _ _ _ _ e _ _ htarget hnew htext hread hrun _ _ ih₂ =>
    obtain ⟨hl₁, himports⟩ := hl.next hkeeps hroot (his _ mem_cons_self) htarget hnew htext hread
    have hroot₁ := (grown_read_add hnew e).has hroot
    exact ih₂ (hrun.grown.has hroot₁) (hrun.stays hkeeps hroot₁ hl₁ himports)
      fun i hi => his i (mem_cons_of_mem _ hi)

end

end

section
variable {ext : String} {fs : FileSystem} {file text : String} {reads : List String} {l : Loading}

theorem not_has_empty (ext : String) (reads : List String) (p : String) :
    ¬ Has ⟨.empty ext, reads⟩ p := by
  intro hp
  cases hp

theorem exists_runs (h : run fs file text ⟨.empty ext, reads⟩ = (l, none)) : ∃ d,
    Draft.read file text = .ok d ∧ Runs fs d d.imports (Loading.add ⟨.empty ext, reads⟩ file d)
      (l, none) := by
  cases (run_eq_iff (not_has_empty ext reads file)).1 h with
  | read hread hrun => exact ⟨_, hread, hrun⟩

/-- **After loading, the workspace holds the drafts of the file and of all that it
    imports.** -/
theorem loads_run {source : String → Option String} (hs : SourceOf fs file source)
    (htext : source file = some text) (h : run fs file text ⟨.empty ext, reads⟩ = (l, none)) :
    l.workspace.HasRead ext source ∧ l.Has file ∧ ∀ {p}, l.Has p → ∀ {d},
      Draft.readFrom source p = some d → ∀ i ∈ d.imports, l.Has (Path.ofImport ext p i.path) := by
  obtain ⟨d, hread, hrun⟩ := exists_runs h
  have hfrom : readFrom source file = some d := readFrom_eq_some_iff.2 ⟨text, htext, hread⟩
  have hempty : (empty ext).HasRead ext source := ⟨rfl, fun hp => by cases hp⟩
  have hhas : (Loading.add ⟨.empty ext, reads⟩ file d).Has file := has_add.2 (.inl rfl)
  obtain ⟨hloads, hall⟩ := hrun.loads hs rfl hhas ((hempty.note (.loading file)).insert hfrom)
  rw [(read_asRead hread).2.1] at hall
  have hloads := hloads.of_add hfrom hall
  exact ⟨hloads.hasRead, hrun.grown.has hhas, fun hp d hd i hi =>
    hloads.imports hp (not_has_empty ext reads _) hd i hi⟩

/-- **Loading succeeds if everything can be read**, and loads nothing else. -/
theorem run_eq_none {P : String → Prop} (hP : Readable ext fs P) (hfile : P file)
    (htext : fs.texts.find? file = some text) (reads : List String) :
    ∃ l, run fs file text ⟨.empty ext, reads⟩ = (l, none) ∧ ∀ p, l.Has p → P p := by
  obtain ⟨text', d, htext', hread, himports⟩ := hP file hfile
  rw [htext] at htext'
  cases htext'
  rw [← (Draft.read_asRead hread).2.1] at himports
  have hempty : Stays ext P ⟨.empty ext, reads⟩ :=
    ⟨rfl, fun p hp => absurd hp (not_has_empty ext reads p)⟩
  have hhas : (Loading.add ⟨.empty ext, reads⟩ file d).Has file := has_add.2 (.inl rfl)
  rcases hrun : run fs file text ⟨.empty ext, reads⟩ with ⟨l, x⟩
  cases (run_eq_iff (not_has_empty ext reads file)).1 hrun with
  | faulty hfault =>
    rw [hread] at hfault
    cases hfault
  | read hread' hrest =>
    rw [hread] at hread'
    cases hread'
    obtain rfl : x = none := hrest.eq_none hP hhas (hempty.add hfile d) himports
    exact ⟨l, rfl, (hrest.stays (hP.keeps file) hhas (hempty.add hfile d) himports).has⟩

end

end Loading

end MessageSchema
