/-
  What a build reports and what it leaves in the library.
-/
import MessageSchema.Proofs.Building
import MessageSchema.Proofs.PostOrder

namespace MessageSchema

open List Table Workspace

namespace Workspace

/-- The files of the drafts attached to a draft, by import key. -/
def importTable (w : Workspace) (d : Draft) : Table String :=
  (w.attachedTo d).foldl (fun t e => t.insert e.1 e.2.file) .empty

/-- Whether all that a draft imports is in a library. -/
def importsIn (w : Workspace) (lib : Library) (d : Draft) : Bool :=
  (w.attachedTo d).all fun e => lib.contains e.2.file

variable {w : Workspace} {d : Draft}

theorem importsIn_iff {lib : Library} :
    w.importsIn lib d = true ↔ ∀ x, w.Attaches d x → lib.contains x.file = true := by
  rw [importsIn, all_eq_true]
  constructor
  · rintro h x ⟨key, hx⟩
    exact h _ hx
  · rintro h ⟨key, x⟩ hx
    exact h x ⟨key, hx⟩

theorem exists_attaches_of_mem_importTable {g : String}
    (h : g ∈ (w.importTable d).values) : ∃ x, w.Attaches d x ∧ x.file = g := by
  obtain ⟨k, hk⟩ := (mem_values_iff _ _).1 h
  rcases find?_foldl_insert hk with ⟨⟨key, x⟩, hx, -, rfl⟩ | hk
  · exact ⟨x, ⟨key, hx⟩, rfl⟩
  · cases hk

/-- The faults found in a draft by itself, with the models of a library. -/
def faultsIn (w : Workspace) (lib : Library) (d : Draft) : List Fault :=
  (Model.ofDraft lib d (w.importTable d)).2

/-- The faults reported for a draft: none of its own if an import was not built. -/
def reported (w : Workspace) (lib : Library) (d : Draft) : List Fault :=
  if w.importsIn lib d then w.faultsIn lib d else []

end Workspace

namespace Build

/-- What building adds for a draft once all that it imports has been settled. -/
def settle (w : Workspace) (b : Build) (d : Draft) : Build :=
  if w.importsIn b.library d then
    if (w.faultsIn b.library d).isEmpty then
      { b with
        library := b.library.insert d.file (Model.ofDraft b.library d (w.importTable d)).1
        events := b.events ++ [.built d.file] }
    else b.fail d.file (w.faultsIn b.library d)
  else b.fail d.file []

/-- Drafts settled one after the other, from an empty library. -/
def settled (w : Workspace) (ds : List Draft) : Build := ds.foldl (settle w) { library := .empty }

theorem settled_concat (w : Workspace) (ds : List Draft) (d : Draft) :
    settled w (ds ++ [d]) = settle w (settled w ds) d := by
  simp [settled]

/-! ## Settling one more draft -/

section
variable (w : Workspace) (b : Build) (d : Draft)

theorem faults_settle : (settle w b d).faults = b.faults ++ w.reported b.library d := by
  rw [settle, reported]
  split
  · next himports =>
    split
    · next hempty => simp [List.isEmpty_iff.1 hempty]
    · rfl
  · rfl

theorem settle_cases : w.importsIn b.library d = true ∧ w.faultsIn b.library d = [] ∧
      (settle w b d).library =
        b.library.insert d.file (Model.ofDraft b.library d (w.importTable d)).1 ∧
      (settle w b d).failed = b.failed ∨
    ¬(w.importsIn b.library d = true ∧ w.faultsIn b.library d = []) ∧
      (settle w b d).library = b.library ∧ (settle w b d).failed = d.file :: b.failed := by
  rw [settle]
  split
  · next himports =>
    split
    · next hempty => exact .inl ⟨himports, List.isEmpty_iff.1 hempty, rfl, rfl⟩
    · next hempty => exact .inr ⟨fun hboth => hempty (List.isEmpty_iff.2 hboth.2), rfl, rfl⟩
  · next himports => exact .inr ⟨fun hboth => himports hboth.1, rfl, rfl⟩

end

/-- What is known of a build that has settled drafts. -/
structure Tallied (w : Workspace) (ds : List Draft) (b : Build) : Prop where
  closed : b.library.Closed
  attached : ∀ e ∈ ds, ∀ x, w.Attaches e x → x.file ∈ ds.map (·.file)
  mem_files : ∀ {f}, f ∈ ds.map (·.file) ↔ b.library.contains f = true ∨ f ∈ b.failed
  faults : b.faults = ds.flatMap (w.reported b.library)
  models : ∀ {f m}, b.library.find? f = some m →
    ∃ e ∈ ds, e.file = f ∧ Model.ofDraft b.library e (w.importTable e) = (m, [])
  built : ∀ e ∈ ds, b.library.contains e.file = true ↔
    w.importsIn b.library e = true ∧ w.faultsIn b.library e = []

theorem Tallied.nil (w : Workspace) : Tallied w [] (settled w []) where
  closed := closed_empty
  attached := by simp
  mem_files := by simp [settled, Table.contains]
  faults := rfl
  models h := by cases h
  built := by simp

namespace Tallied

variable {w : Workspace} {ds : List Draft} {b : Build} (h : Tallied w ds b) {d : Draft}
  (hfile : d.file ∉ ds.map (·.file)) (himports : ∀ x, w.Attaches d x → x.file ∈ ds.map (·.file))
include h

theorem closed_settle : (settle w b d).library.Closed := by
  rcases settle_cases w b d with ⟨hin, -, hlib, -⟩ | ⟨-, hlib, -⟩
  · rw [hlib]
    refine closed_insert h.closed fun g hg => ?_
    obtain ⟨x, hx, rfl⟩ := exists_attaches_of_mem_importTable hg
    exact importsIn_iff.1 hin x hx
  · rw [hlib]
    exact h.closed

include hfile

variable {g : String} {e : Draft}

theorem agreesFrom_settle (hg : g ∈ ds.map (·.file)) :
    b.library.AgreesFrom (settle w b d).library g := by
  rcases settle_cases w b d with ⟨-, -, hlib, -⟩ | ⟨-, hlib, -⟩
  · intro k hk
    have hne : k ≠ d.file := by
      rintro rfl
      rcases hk.cases_tail with heq | ⟨l, -, hl⟩
      · exact hfile (heq ▸ hg)
      · exact hfile (h.mem_files.2 (.inl (h.closed _ _ hl)))
    rw [hlib, find?_insert_of_ne _ hne]
  · rw [hlib]
    exact fun _ _ => rfl

theorem contains_settle (hg : g ∈ ds.map (·.file)) :
    (settle w b d).library.contains g = b.library.contains g := by
  rw [Table.contains, Table.contains, ← h.agreesFrom_settle hfile hg g .refl]

theorem ofDraft_settle (he : ∀ x, w.Attaches e x → x.file ∈ ds.map (·.file)) :
    Model.ofDraft (settle w b d).library e (w.importTable e) =
      Model.ofDraft b.library e (w.importTable e) := by
  refine (Model.ofDraft_congr e fun g hg => ?_).symm
  obtain ⟨x, hx, rfl⟩ := exists_attaches_of_mem_importTable hg
  exact h.agreesFrom_settle hfile (he x hx)

theorem importsIn_settle (he : ∀ x, w.Attaches e x → x.file ∈ ds.map (·.file)) :
    w.importsIn (settle w b d).library e = w.importsIn b.library e := by
  rw [Bool.eq_iff_iff, importsIn_iff, importsIn_iff]
  refine forall₂_congr fun x hx => ?_
  rw [h.contains_settle hfile (he x hx)]

theorem reported_settle (he : ∀ x, w.Attaches e x → x.file ∈ ds.map (·.file)) :
    w.reported (settle w b d).library e = w.reported b.library e := by
  rw [reported, reported, h.importsIn_settle hfile he, faultsIn,
    faultsIn, h.ofDraft_settle hfile he]

theorem built_settle : (settle w b d).library.contains d.file = true ↔
    w.importsIn b.library d = true ∧ w.faultsIn b.library d = [] := by
  rcases settle_cases w b d with ⟨hin, hnone, hlib, -⟩ | ⟨hnot, hlib, -⟩
  · rw [hlib, contains_insert_iff]
    simp [hin, hnone]
  · rw [hlib]
    exact ⟨fun hhas => absurd (h.mem_files.2 (.inl hhas)) hfile, fun hboth => absurd hboth hnot⟩

include himports

/-- **One more draft settled.** -/
theorem concat : Tallied w (ds ++ [d]) (settle w b d) := by
  have hattached : ∀ e ∈ ds ++ [d], ∀ x, w.Attaches e x → x.file ∈ ds.map (·.file) := by
    intro e he x hx
    rcases mem_append.1 he with he | he
    · exact h.attached e he x hx
    · obtain rfl := mem_singleton.1 he
      exact himports x hx
  have hofDraft : ∀ e ∈ ds ++ [d], Model.ofDraft (settle w b d).library e (w.importTable e) =
      Model.ofDraft b.library e (w.importTable e) :=
    fun e he => h.ofDraft_settle hfile (hattached e he)
  refine ⟨h.closed_settle, fun e he x hx => ?_, fun {f} => ?_, ?_, fun {f m} hm => ?_,
    fun e he => ?_⟩
  · rw [map_append]
    exact mem_append_left _ (hattached e he x hx)
  · rw [map_append, mem_append, h.mem_files, map_singleton, mem_singleton]
    rcases settle_cases w b d with ⟨-, -, hlib, hfailed⟩ | ⟨-, hlib, hfailed⟩
    · rw [hlib, hfailed, contains_insert_iff]
      tauto
    · rw [hlib, hfailed, mem_cons]
      tauto
  · have hall : (ds ++ [d]).flatMap (w.reported (settle w b d).library) =
        (ds ++ [d]).flatMap (w.reported b.library) :=
      flatMap_congr fun e he => h.reported_settle hfile (hattached e he)
    rw [faults_settle, hall, h.faults, flatMap_append, flatMap_singleton]
  · have hold : b.library.find? f = some m →
        ∃ e ∈ ds ++ [d], e.file = f ∧ Model.ofDraft (settle w b d).library e (w.importTable e) =
        (m, []) := by
      intro hm
      obtain ⟨e, he, hef, heq⟩ := h.models hm
      have he := mem_append_left [d] he
      exact ⟨e, he, hef, (hofDraft e he).trans heq⟩
    rcases settle_cases w b d with ⟨-, hnone, hlib, -⟩ | ⟨-, hlib, -⟩
    · rw [hlib, find?_insert] at hm
      split at hm
      · next hfd =>
        cases hm
        have hd : d ∈ ds ++ [d] := by simp
        exact ⟨d, hd, hfd.symm, (hofDraft d hd).trans (Prod.ext rfl hnone)⟩
      · exact hold hm
    · rw [hlib] at hm
      exact hold hm
  · rw [h.importsIn_settle hfile (hattached e he), faultsIn, hofDraft e he]
    rcases mem_append.1 he with he | he
    · rw [h.contains_settle hfile (mem_map_of_mem he)]
      exact h.built e he
    · obtain rfl := mem_singleton.1 he
      exact h.built_settle hfile

end Tallied

/-! ## Building is settling -/

variable {w : Workspace} {ds s t : List Draft} {n : Nat} {chain : List String} {d : Draft}

theorem tallied_of_visits (h : w.Visits ds s t)
    (hds : ∀ d ∈ ds, w.Acyclic d) (hs : Tallied w s (settled w s)) : Tallied w t (settled w t) := by
  refine h.rec_concat (P := fun s => Tallied w s (settled w s)) ?_ hds hs
  intro s d hs hfile himports
  rw [settled_concat]
  exact hs.concat hfile himports

theorem contains_of_visits (h : w.Visits ds s t) (hds : ∀ d ∈ ds, w.Acyclic d)
    (hs : Tallied w s (settled w s)) {f : String} (hf : f ∈ s.map (·.file)) :
    (settled w t).library.contains f = (settled w s).library.contains f := by
  refine (h.rec_concat (P := fun t => Tallied w t (settled w t) ∧ f ∈ t.map (·.file) ∧
    (settled w t).library.contains f = (settled w s).library.contains f) ?_ hds ⟨hs, hf, rfl⟩).2.2
  rintro t d ⟨ht, hf, heq⟩ hfile himports
  rw [settled_concat, map_append]
  exact ⟨ht.concat hfile himports, mem_append_left _ hf, (ht.contains_settle hfile hf).trans heq⟩

/-- `build` settles a draft after all that it leads to, in the order of visits. -/
def InOrder (w : Workspace) (build : Draft → Build → Build × Bool) (d : Draft) : Prop :=
  ∀ s, Tallied w s (settled w s) → ∃ t, w.Visits [d] s t ∧
    build d (settled w s) = (settled w t, (settled w t).library.contains d.file)

theorem foldl_addImport_eq_settled {build : Draft → Build → Build × Bool}
    {xs : List (String × Draft)} (hbuild : ∀ e ∈ xs, InOrder w build e.2)
    (hxs : ∀ e ∈ xs, w.Acyclic e.2) (hs : Tallied w s (settled w s)) (done : Table String)
    (ok : Bool) :
    ∃ t done', w.Visits (xs.map (·.2)) s t ∧
      xs.foldl (addImport build) (settled w s, done, ok) = (settled w t, done',
        ok && xs.all fun e => (settled w t).library.contains e.2.file) ∧
      ((xs.all fun e => (settled w t).library.contains e.2.file) = true →
        done' = xs.foldl (fun t e => t.insert e.1 e.2.file) done) := by
  induction xs generalizing s done ok with
  | nil => exact ⟨s, done, .nil s, by simp, fun _ => rfl⟩
  | cons e xs ih =>
    obtain ⟨s', hvisit, hone⟩ := hbuild e mem_cons_self s hs
    have he : ∀ d ∈ [e.2], w.Acyclic d := by simpa using hxs e mem_cons_self
    have hs' := tallied_of_visits hvisit he hs
    have hxs' := fun x hx => hxs x (mem_cons_of_mem e hx)
    obtain ⟨t, done', hvisits, hrest, hdone⟩ :=
      ih (fun x hx => hbuild x (mem_cons_of_mem _ hx)) hxs' hs'
      (if (settled w s').library.contains e.2.file then done.insert e.1 e.2.file else done)
      (ok && (settled w s').library.contains e.2.file)
    -- whether the import was built is known once it has been visited
    have hkept : (settled w t).library.contains e.2.file =
        (settled w s').library.contains e.2.file :=
      contains_of_visits hvisits (forall_mem_map.2 hxs') hs' (hvisit.file_mem (by simp))
    refine ⟨t, done', .cons hvisit hvisits, ?_, fun hall => ?_⟩
    · rw [all_cons, hkept, ← Bool.and_assoc, ← hrest, foldl_cons, addImport, hone]
      cases (settled w s').library.contains e.2.file <;> simp
    · rw [all_cons, Bool.and_eq_true, hkept] at hall
      rw [hdone hall.2, if_pos hall.1, foldl_cons]

theorem file_succ_eq_settle {b b' : Build} {done : Table String}
    (hhas : ¬b.library.contains d.file = true) (hfailed : ¬b.failed.contains d.file = true)
    (hchain : ¬chain.contains d.file = true)
    (hfold : (w.attachedTo d).foldl (addImport (file w n (chain ++ [d.file]))) (b, .empty, true) =
      (b', done, w.importsIn b'.library d))
    (hdone : w.importsIn b'.library d = true → done = w.importTable d) :
    file w (n + 1) chain d b =
      (settle w b' d, w.importsIn b'.library d && (w.faultsIn b'.library d).isEmpty) := by
  rw [file, if_neg hhas, if_neg hfailed, if_neg hchain, hfold, settle]
  cases hin : w.importsIn b'.library d with
  | false => rfl
  | true =>
    obtain rfl := hdone hin
    obtain ⟨m, hm⟩ : ∃ m, Model.ofDraft b'.library d (w.importTable d) =
      (m, w.faultsIn b'.library d) := ⟨_, rfl⟩
    cases hfaults : w.faultsIn b'.library d with
    | nil =>
      rw [hfaults] at hm
      simp [hm]
    | cons fault faults =>
      rw [hfaults] at hm
      simp [hm]

/-- **Building a draft settles the drafts that it leads to**, in the order of
    depth-first visits.  The files that wait for it are distinct, so the depth is
    enough. -/
theorem file_eq_settled {root : Draft} (hroot : w.Acyclic root)
    (hd : Relation.ReflTransGen w.Attaches root d)
    (hchain : ∀ f ∈ chain, ∃ x, Relation.ReflTransGen w.Attaches root x ∧
      Relation.TransGen w.Attaches x d ∧ x.file = f)
    (hn : unlisted (w.drafts.map (·.file)) (chain ++ [d.file]) < n) :
    InOrder w (file w n chain) d := by
  induction n generalizing chain d with
  | zero => omega
  | succ n ih =>
    intro s hs
    have hnot : chain.contains d.file = false := by
      rw [Bool.eq_false_iff, ne_eq, contains_eq_mem, decide_eq_true_eq]
      intro hmem
      obtain ⟨x, hx, hxd, heq⟩ := hchain _ hmem
      exact hroot x d hx hxd heq
    have himport : ∀ e ∈ w.attachedTo d, InOrder w (file w n (chain ++ [d.file])) e.2 := by
      rintro ⟨key, x⟩ he
      have hattaches : w.Attaches d x := ⟨key, he⟩
      have hwait : ∀ f ∈ chain ++ [d.file], ∃ y, Relation.ReflTransGen w.Attaches root y ∧
          Relation.TransGen w.Attaches y x ∧ y.file = f := by
        intro f hf
        rcases mem_append.1 hf with hf | hf
        · obtain ⟨y, hy, hyd, rfl⟩ := hchain f hf
          exact ⟨y, hy, hyd.tail hattaches, rfl⟩
        · exact ⟨d, hd, .single hattaches, (mem_singleton.1 hf).symm⟩
      refine ih (hd.tail hattaches) hwait (Nat.lt_of_lt_of_le (unlisted_lt (subset_append_left _ _)
        (mem_map_of_mem (mem_drafts_of_attaches hattaches)) (fun hmem => ?_) (by simp))
        (Nat.le_of_lt_succ hn))
      obtain ⟨y, hy, hyx, heq⟩ := hwait _ hmem
      exact hroot y x hy hyx heq
    have hacyclic : ∀ e ∈ w.attachedTo d, w.Acyclic e.2 :=
      fun e he x y hx => hroot x y (hd.trans (hx.head ⟨e.1, he⟩))
    by_cases hfile : d.file ∈ s.map (·.file)
    · refine ⟨s, .seen hfile (.nil s), ?_⟩
      rw [file]
      split
      · next hhas => rw [hhas]
      · next hhas =>
        have hfailed : (settled w s).failed.contains d.file = true := by
          simpa using (hs.mem_files.1 hfile).resolve_left hhas
        rw [if_pos hfailed, Bool.eq_false_iff.2 hhas]
    · obtain ⟨s', done, hvisits, hfold, hdone⟩ :=
        foldl_addImport_eq_settled himport hacyclic hs .empty true
      refine ⟨s' ++ [d], .new hfile hvisits (.nil _), ?_⟩
      have hs' := tallied_of_visits hvisits (forall_mem_map.2 hacyclic) hs
      have hfile' := Visits.file_not_mem (fun x y hx => hroot x y (hd.trans hx)) hfile hvisits
      have hhas : ¬(settled w s).library.contains d.file = true :=
        fun hhas => hfile (hs.mem_files.2 (.inl hhas))
      have hfailed : ¬(settled w s).failed.contains d.file = true := fun hfailed =>
        hfile (hs.mem_files.2 (.inr (by simpa using hfailed)))
      rw [file_succ_eq_settle hhas hfailed (Bool.eq_false_iff.1 hnot) hfold hdone, settled_concat]
      have hbuilt := hs'.built_settle hfile'
      rw [← List.isEmpty_iff, ← Bool.and_eq_true, ← Bool.eq_iff_iff] at hbuilt
      rw [hbuilt]

/-! ## Whole builds -/

section
variable {w : Workspace} {d : Draft} {order : List Draft} (h : w.Visits [d] [] order)
  (hd : w.Acyclic d)
include h hd

theorem tallied_settled : Tallied w order (settled w order) :=
  tallied_of_visits h (by simpa using hd) (.nil w)

theorem contains_settled_iff {e : Draft} (he : e ∈ order) :
    (settled w order).library.contains e.file = true ↔
      ∀ x, Relation.ReflTransGen (w.Leads order) e x →
        w.reported (settled w order).library x = [] := by
  have htally := tallied_settled h hd
  constructor
  · intro hhas x hx
    have hx' : x ∈ order ∧ (settled w order).library.contains x.file = true := by
      induction hx with
      | refl => exact ⟨he, hhas⟩
      | tail _ hleads ih =>
        obtain ⟨hmem, y, hy, heq⟩ := hleads
        have hin := ((htally.built _ ih.1).1 ih.2).1
        exact ⟨hmem, heq ▸ importsIn_iff.1 hin y hy⟩
    obtain ⟨hin, hnone⟩ := (htally.built x hx'.1).1 hx'.2
    rw [reported, if_pos hin, hnone]
  · -- along the order, so that the imports are known to be built
    revert e
    have hall := h.forall_file hd (Q := fun f => ∀ e ∈ order, e.file = f →
      (∀ x, Relation.ReflTransGen (w.Leads order) e x →
      w.reported (settled w order).library x = []) →
      (settled w order).library.contains e.file = true) ?_
    · exact fun {e} he => hall e he e he rfl
    intro e he ih e' he' heq hnone
    obtain rfl := inj_on_of_nodup_map (h.nodup_files hd) he' he heq
    have hin : w.importsIn (settled w order).library e' = true := by
      refine importsIn_iff.2 fun x hx => ?_
      obtain ⟨y, hy, hfile⟩ := mem_map.1 (h.file_mem_of_attaches hd he hx)
      rw [← hfile]
      exact ih x hx y hy hfile fun z hz => hnone z (hz.head ⟨hy, x, hx, hfile.symm⟩)
    have hown := hnone e' .refl
    rw [reported, if_pos hin] at hown
    exact (htally.built e' he).2 ⟨hin, hown⟩

theorem faults_settled_eq_nil_iff :
    (settled w order).faults = [] ↔ (settled w order).library.contains d.file = true := by
  have htally := tallied_settled h hd
  rw [contains_settled_iff h hd ((h.mem_iff hd).2 .refl), htally.faults, flatMap_eq_nil_iff]
  refine forall_congr' fun e => ?_
  rw [h.mem_iff hd]

end

/-- **A build reports exactly what it finds.**  There is one depth-first order of the
    files that a draft leads to, each after its imports; the faults are those of the files
    whose imports were all built, file by file in this order; the build succeeds if there
    are none and fails with them otherwise; and the library has the models of the files
    that lead to none. -/
theorem run_accumulates {w : Workspace} {d : Draft} (hd : w.Acyclic d) :
    ∃ order lib events faults, (∀ o, w.Visits [d] [] o ↔ o = order) ∧
      (∀ e, e ∈ order ↔ Relation.ReflTransGen (w.Leads order) d e) ∧
      run w .empty d = (lib, events, if faults.isEmpty then .ok () else .error ⟨faults⟩) ∧
      faults = order.flatMap (w.reported lib) ∧
      (∀ f, lib.contains f = true ↔ ∃ e ∈ order, e.file = f ∧
        ∀ x, Relation.ReflTransGen (w.Leads order) e x → w.reported lib x = []) ∧
      (∀ f m, lib.find? f = some m → ∃ e ∈ order, e.file = f ∧
        Model.ofDraft lib e (w.importTable e) = (m, [])) := by
  have hsettles : InOrder w (file w (w.drafts.length + 1) []) d :=
    file_eq_settled hd .refl (fun f hf => nomatch hf)
      (Nat.lt_succ_of_le ((unlisted_le _ _).trans (length_map _).le))
  obtain ⟨order, hvisits, hfile⟩ := hsettles [] (.nil w)
  have htally := tallied_settled hvisits hd
  obtain ⟨events, hrun⟩ : ∃ events, run w .empty d = ((settled w order).library, events,
      if (settled w order).faults.isEmpty then .ok () else .error ⟨(settled w order).faults⟩) := by
    rw [run, show ({ library := .empty } : Build) = settled w [] from rfl, hfile]
    cases hempty : (settled w order).faults.isEmpty with
    | true =>
      have hhas := (faults_settled_eq_nil_iff hvisits hd).1 (List.isEmpty_iff.1 hempty)
      exact ⟨(settled w order).events, by simp [hhas, hempty]⟩
    | false =>
      exact ⟨(settled w order).events ++
        [.failed d.file (settled w order).faults.length], by simp [hempty]⟩
  refine ⟨order, (settled w order).library, events, (settled w order).faults,
    fun o => ⟨fun ho => ho.unique hvisits, fun ho => ho ▸ hvisits⟩,
    fun e => hvisits.mem_iff hd, hrun,
    htally.faults, fun f => ⟨fun hf => ?_, ?_⟩, fun f m hm => htally.models hm⟩
  · obtain ⟨m, hm⟩ := (contains_iff _ _).1 hf
    obtain ⟨e, he, rfl, -⟩ := htally.models hm
    exact ⟨e, he, rfl, (contains_settled_iff hvisits hd he).1 hf⟩
  · rintro ⟨e, he, rfl, hall⟩
    exact (contains_settled_iff hvisits hd he).2 hall

/-- A file that declares messages outside any namespace, with the numbers of the drafts that
    it imports. -/
def outlying (file : String) (imports : List DraftId) (names : List String) : Draft :=
  { file, stem := file, arena := [], imports := []
    attached := imports.foldl (fun t id => t.insert (toString id) id) .empty
    top := { messages := names.map fun name => ⟨name, none, [], ⟨.none, file, 1, ""⟩⟩ } }

/-- Files of which only one can be built: one fails for another, two by themselves, and
    the first for both reasons. -/
def patchy : Workspace :=
  { empty ".def" with
    drafts := [outlying "a" [1, 2] ["A"], outlying "b" [4, 3] ["B"], outlying "c" [4] ["C"],
      outlying "x" [] ["X"], outlying "y" [] []] }

theorem run_accumulates_patchy : patchy.Acyclic (outlying "a" [1, 2] ["A"]) ∧
    ∃ order lib events, patchy.Visits [outlying "a" [1, 2] ["A"]] [] order ∧
      run patchy .empty (outlying "a" [1, 2] ["A"]) =
        (lib, events, .error ⟨order.flatMap (patchy.reported lib)⟩) ∧
      order.flatMap (patchy.reported lib) =
        [{ cause := .outsideNamespace "X", file := "x", line := 1 },
          { cause := .outsideNamespace "C", file := "c", line := 1 }] ∧
      lib.keys = ["y"] := by
  have hacyclic : patchy.Acyclic (outlying "a" [1, 2] ["A"]) := by
    refine acyclic_of_rank
      (fun f => if f = "a" then 2 else if f = "b" ∨ f = "c" then 1 else 0) ?_ ?_
    · decide +kernel
    · decide +kernel
  have hend : (run patchy .empty (outlying "a" [1, 2] ["A"])).2.2 = .error
      ⟨[{ cause := .outsideNamespace "X", file := "x", line := 1 },
        { cause := .outsideNamespace "C", file := "c", line := 1 }]⟩ := by decide +kernel
  have hkeys : (run patchy .empty (outlying "a" [1, 2] ["A"])).1.keys = ["y"] := by decide +kernel
  obtain ⟨order, lib, events, faults, hvisits, -, hrun, rfl, -, -⟩ := run_accumulates hacyclic
  rw [hrun] at hend hkeys
  dsimp only at hend
  split at hend
  · cases hend
  · next hsome =>
    rw [if_neg hsome] at hrun
    have hfaults := congrArg Rejection.faults (Except.error.inj hend)
    exact ⟨hacyclic, order, lib, events, (hvisits order).2 rfl, hrun, hfaults, hkeys⟩

end Build

end MessageSchema
