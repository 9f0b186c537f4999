/-
  Running the passes in a workspace.
-/
import MessageSchema.Proofs.Links
import MessageSchema.Proofs.Ordering
import MessageSchema.Proofs.Refinement

namespace MessageSchema

open List Draft

/-! ## What is attached to a draft -/

namespace Draft

/-- A draft without what is attached to it. -/
def detach (d : Draft) : Draft := { d with attached := .empty }

theorem detach_eq_self {d : Draft} (h : d.attached = .empty) : d.detach = d := by
  rw [detach, ← h]

theorem surroundings_detach (d : Draft) (imports : List (String × Draft)) :
    d.surroundings (imports.map fun i => (i.1, i.2.detach)) = d.surroundings imports := by
  simp only [surroundings, filter_map, map_map]
  rfl

theorem resolve_attach (imports : List (String × Draft)) (d : Draft) (a : Table DraftId) :
    { d with attached := a }.resolve imports = (d.resolve imports).map fun e =>
      { e with attached := a } := by
  unfold resolve
  split
  · next h => rw [if_pos (show d.isWrapped = true from h)]; rfl
  · next h => rw [if_neg (show ¬ d.isWrapped = true from h)]; rfl

theorem promote_attach (d : Draft) (a : Table DraftId) :
    { d with attached := a }.promote = ({ d.promote.1 with attached := a }, d.promote.2) := by
  simp only [promote]
  split <;> rfl

theorem refines_detach_iff {imports : List (String × Draft)} {raw d : Draft} :
    Refines (imports.map fun i => (i.1, i.2.detach)) raw d ↔ Refines imports raw d := by
  simp only [Refines, resolve, surroundings_detach]

end Draft

namespace Workspace

variable {w w' : Workspace} {id : DraftId} {d : Draft}

/-- The drafts with the numbers in a table, by key. -/
def attachments (w : Workspace) (a : Table DraftId) : List (String × Draft) :=
  a.entries.filterMap fun e => (w.draft? e.2).map fun x => (e.1, x)

/-- The draft that a path stands for. -/
def draftAt? (w : Workspace) (p : String) : Option Draft := (w.registry.find? p).bind w.draft?

/-- The drafts that paths stand for, whatever is attached to them. -/
def final (w : Workspace) (p : String) : Option Draft := (w.draftAt? p).map detach

/-- What attaching gives if all imports are registered. -/
def linksOf (w : Workspace) (d : Draft) : Table DraftId :=
  d.imports.foldl (fun t i => t.insert i.key ((w.registry.find? (w.target d i)).getD 0)) .empty

section
variable {w : Workspace} {d : Draft} (h : ∀ i ∈ d.imports, ∃ j, w.imported? d i = some j)
include h

theorem attachAll_eq_linksOf_iff {a : Table DraftId} :
    attachAll d.file (w.imported? d) d.imports .empty .empty = (a, none) ↔
      KeysApart d.imports ∧ a = w.linksOf d := by
  refine attachAll_eq_none_iff fun i hi => ?_
  obtain ⟨j, hj⟩ := h i hi
  rw [hj, show w.registry.find? (w.target d i) = some j from hj]
  rfl

omit h in
theorem entries_linksOf : (w.linksOf d).entries =
    (d.links w.extension).entries.map fun e => (e.1, (w.registry.find? e.2).getD 0) :=
  Table.entries_foldl_insert_map (fun p => (w.registry.find? p).getD 0) d.imports rfl

theorem exists_id_of_mem_links {e : String × String} (he : e ∈ (d.links w.extension).entries) :
    ∃ i ∈ d.imports, w.target d i = e.2 ∧ ∃ j, w.registry.find? e.2 = some j := by
  obtain ⟨i, hi, -, htarget⟩ := exists_import_of_find?_links ((Table.mem_entries_iff _ _ _).1 he)
  obtain ⟨j, hj⟩ := h i hi
  exact ⟨i, hi, htarget, j, by rw [← htarget]; exact hj⟩

theorem attachments_linksOf : w.attachments (w.linksOf d) =
    (d.links w.extension).entries.filterMap fun e => (w.draftAt? e.2).map fun x => (e.1, x) := by
  rw [attachments, entries_linksOf, filterMap_map]
  refine filterMap_congr fun e he => ?_
  obtain ⟨-, -, -, j, hj⟩ := exists_id_of_mem_links h he
  simp only [Function.comp_def, draftAt?, hj, Option.getD_some, Option.bind_some]

theorem detach_attachments_linksOf :
    (w.attachments (w.linksOf d)).map (fun i => (i.1, i.2.detach)) =
      d.linked w.extension w.final := by
  rw [attachments_linksOf h, map_filterMap, linked]
  refine filterMap_congr fun e _ => ?_
  rw [final]
  cases w.draftAt? e.2 <;> rfl

end

/-! ## One draft -/

/-- Replaces a draft and what has happened. -/
def put (w : Workspace) (id : DraftId) (d : Draft) (events : List Event) : Workspace :=
  { w with drafts := w.drafts.set id d, events }

theorem draft?_put_self {x : Draft} (h : w.draft? id = some x) (d : Draft) (events : List Event) :
    (w.put id d events).draft? id = some d :=
  getElem?_set_self (List.getElem?_eq_some_iff.1 h).1

theorem draft?_put_of_ne (w : Workspace) {j : DraftId} (h : j ≠ id) (d : Draft)
    (events : List Event) : (w.put id d events).draft? j = w.draft? j :=
  getElem?_set_ne (Ne.symm h)

theorem put_self (h : w.draft? id = some d) : w.put id d w.events = w := by
  obtain ⟨hlt, hget⟩ := List.getElem?_eq_some_iff.1 h
  rw [put, ← hget, set_getElem_self]

/-- The workspace in which a pass is run. -/
def running (w : Workspace) (p : Pass) (id : DraftId) : Workspace :=
  w.note (.running p.name (w.fileOf id))

theorem refine_cons_eq_none_iff {p : Pass} {ps : List Pass} (hd : w.draft? id = some d) :
    refine id (p :: ps) w = (w', none) ↔
      ∃ d', p.run (w.running p id) d = (d', none) ∧
        refine id ps (w.put id d' (w.running p id).events) = (w', none) := by
  have hrun : (w.running p id).runPass p id =
      (w.put id (p.run (w.running p id) d).1 (w.running p id).events,
      (p.run (w.running p id) d).2) := by
    rw [runPass, show (w.running p id).draft? id = some d from hd]; rfl
  rw [refine, ← running, hrun]
  obtain ⟨d', breakdown⟩ := p.run (w.running p id) d
  cases breakdown with
  | some b => simp
  | none => simp

/-- The same paths stand for the same numbers. -/
structure SameFiles (w w' : Workspace) : Prop where
  registry : w'.registry = w.registry
  extension : w'.extension = w.extension
  length : w'.drafts.length = w.drafts.length

theorem SameFiles.refl (w : Workspace) : w.SameFiles w := ⟨rfl, rfl, rfl⟩

theorem SameFiles.symm (h : w.SameFiles w') : w'.SameFiles w :=
  ⟨h.registry.symm, h.extension.symm, h.length.symm⟩

theorem SameFiles.trans {w'' : Workspace} (h : w.SameFiles w') (h' : w'.SameFiles w'') :
    w.SameFiles w'' :=
  ⟨h'.registry.trans h.registry, h'.extension.trans h.extension, h'.length.trans h.length⟩

theorem sameFiles_put (w : Workspace) (id : DraftId) (d : Draft) (evs : List Event) :
    w.SameFiles (w.put id d evs) := ⟨rfl, rfl, length_set⟩

theorem SameFiles.imported? (h : w.SameFiles w') (d : Draft) (i : Import) :
    w'.imported? d i = w.imported? d i := by
  rw [Workspace.imported?, Workspace.imported?, Workspace.target, Workspace.target,
    h.registry, h.extension]

theorem SameFiles.linksOf (h : w.SameFiles w') (d : Draft) : w'.linksOf d = w.linksOf d := by
  simp only [Workspace.linksOf, Workspace.target, h.registry, h.extension]

/-- Passes change drafts only, however they end. -/
theorem sameFiles_refine (id : DraftId) (ps : List Pass) (w : Workspace) :
    w.SameFiles (refine id ps w).1 := by
  induction ps generalizing w with
  | nil => exact .refl w
  | cons p ps ih =>
    have hpass : w.SameFiles ((w.note (.running p.name (w.fileOf id))).runPass p id).1 := by
      unfold runPass
      split
      · exact ⟨rfl, rfl, rfl⟩
      · exact ⟨rfl, rfl, length_set⟩
    rw [refine]
    simp only
    split
    · exact hpass
    · exact hpass.trans (ih _)

theorem sameFiles_refineEach (ps : List Pass) (ids : List DraftId) (w : Workspace) :
    w.SameFiles (refineEach ps ids w).1 := by
  induction ids generalizing w with
  | nil => exact .refl w
  | cons id ids ih =>
    have hone := sameFiles_refine id ps w
    rw [refineEach]
    split
    · next heq => rwa [heq] at hone
    · next heq =>
      rw [heq] at hone
      exact hone.trans (ih _)

theorem sameFiles_refineAll (w : Workspace) : w.SameFiles w.refineAll.1 := by
  unfold refineAll
  split
  · exact .refl w
  · next ids _ =>
    have heach := sameFiles_refineEach Pass.multi ids w
    split
    · next heq => rwa [heq] at heach
    · next heq => rwa [heq] at heach

/-- What attaching gives, and the fault that ends it. -/
def attaching (w : Workspace) (d : Draft) : Table DraftId × Option Fault :=
  attachAll d.file (w.imported? d) d.imports .empty .empty

theorem SameFiles.attaching (h : w.SameFiles w') (d : Draft) : w'.attaching d = w.attaching d := by
  have hfind : w'.imported? d = w.imported? d := funext (h.imported? d)
  rw [Workspace.attaching, Workspace.attaching, hfind]

theorem exists_import_of_attaching {e : String × DraftId} (he : e ∈ (w.attaching d).1.entries) :
    ∃ i ∈ d.imports, i.key = e.1 ∧ w.imported? d i = some e.2 := by
  rcases exists_import_of_attachAll ((Table.mem_entries_iff _ _ _).1 he) with h | h
  · exact h
  · cases h

/-- The passes make `d` of a draft, with the drafts that are attached to it. -/
def Attains (w : Workspace) (raw d : Draft) : Prop :=
  (w.attaching raw).2 = none ∧ Refines (w.attachments (w.attaching raw).1) raw d

section
variable {w : Workspace} {id : DraftId} {raw : Draft} (hraw : w.draft? id = some raw)
  (hnew : raw.attached = .empty) (hself : ∀ i ∈ raw.imports, w.imported? raw i ≠ some id)
include hself

/-- The attached drafts, whatever has become of the draft itself. -/
theorem attachments_put (d : Draft) (evs : List Event) :
    (w.put id d evs).attachments (w.attaching raw).1 = w.attachments (w.attaching raw).1 := by
  refine filterMap_congr fun e he => ?_
  obtain ⟨i, hi, -, hj⟩ := exists_import_of_attaching he
  have hne : e.2 ≠ id := by
    intro heq
    exact hself i hi (heq ▸ hj)
  rw [draft?_put_of_ne w hne]

omit hself in
include hnew in
theorem run_attach {ws : Workspace} (hws : w.SameFiles ws) : Pass.attach.run ws raw.wrap =
    ({ raw.wrap with attached := (w.attaching raw).1 }, (w.attaching raw).2.map .fault) := by
  have hfind : ws.imported? raw.wrap = w.imported? raw := by
    funext i
    rw [← hws.imported?, imported?, imported?, target, target, Draft.wrap_file]
  have hall : Draft.attachAll raw.wrap.file (ws.imported? raw.wrap) raw.wrap.imports .empty
      raw.wrap.attached = w.attaching raw := by
    rw [hfind, Draft.wrap_file, Draft.wrap_imports, Draft.wrap_attached, hnew, attaching]
  simp only [Pass.attach, Draft.attach, hall]

theorem run_resolve_iff {x p : Draft} {evs : List Event} :
    Pass.resolve.run (w.put id x evs) { p with attached := (w.attaching raw).1 } = (d, none) ↔
      ∃ e, p.resolve (w.attachments (w.attaching raw).1) = .ok e ∧
        d = { e with attached := (w.attaching raw).1 } := by
  have hattached : (w.put id x evs).attachedTo { p with attached := (w.attaching raw).1 } =
      w.attachments (w.attaching raw).1 := attachments_put hself x evs
  simp only [Pass.resolve, hattached, resolve_attach]
  cases p.resolve (w.attachments (w.attaching raw).1) with
  | error fault => simp [Except.map]
  | ok e => simp [Except.map, eq_comm]

omit hself in
theorem run_promote_iff {ws : Workspace} {e : Draft} {a : Table DraftId} :
    Pass.promote.run ws { e with attached := a } = (d, none) ↔
      ∃ d', e.promote = (d', none) ∧ d = { d' with attached := a } := by
  simp only [Pass.promote, promote_attach]
  obtain ⟨d', fault⟩ := e.promote
  cases fault with
  | some fault => simp
  | none => simp [eq_comm]

omit hself in
include hraw in
/-- One more pass, on a draft that is being changed. -/
theorem refine_put_cons (d : Draft) (p : Pass) (ps : List Pass) (evs : List Event) :
    ∃ evs', ∀ w', refine id (p :: ps) (w.put id d evs) = (w', none) ↔
      ∃ d', p.run (w.put id d evs') d = (d', none) ∧ refine id ps (w.put id d' evs') =
        (w', none) := by
  refine ⟨((w.put id d evs).running p id).events, fun w' => ?_⟩
  rw [refine_cons_eq_none_iff (draft?_put_self hraw d evs)]
  refine exists_congr fun d' => and_congr_right fun _ => ?_
  simp [put]

include hraw hnew

theorem refine_multi_resolved : ∃ evs, ∀ w', refine id Pass.multi w = (w', none) ↔
    (w.attaching raw).2 = none ∧
      ∃ e, raw.wrap.useColons.resolve (w.attachments (w.attaching raw).1) = .ok e ∧
        refine id [.promote] (w.put id { e with attached := (w.attaching raw).1 } evs) =
          (w', none) := by
  obtain ⟨evs₁, h₁⟩ :=
    refine_put_cons hraw raw .wrap [.attach, .useColons, .resolve, .promote] w.events
  obtain ⟨evs₂, h₂⟩ := refine_put_cons hraw raw.wrap .attach [.useColons, .resolve, .promote] evs₁
  obtain ⟨evs₃, h₃⟩ :=
    refine_put_cons hraw { raw.wrap with attached := (w.attaching raw).1 } .useColons
    [.resolve, .promote] evs₂
  obtain ⟨evs₄, h₄⟩ :=
    refine_put_cons hraw { raw.wrap.useColons with attached := (w.attaching raw).1 } .resolve
    [.promote] evs₃
  have hattach := run_attach hnew (sameFiles_put w id raw.wrap evs₂)
  refine ⟨evs₄, fun w' => ?_⟩
  rw [← congrArg (refine id Pass.multi) (put_self hraw)]
  refine (h₁ w').trans ⟨?_, ?_⟩
  · rintro ⟨_, hwrap, h⟩
    cases hwrap
    obtain ⟨d₂, hrun, h⟩ := (h₂ w').1 h
    rw [hattach, Prod.mk.injEq, Option.map_eq_none_iff] at hrun
    obtain ⟨rfl, hnone⟩ := hrun
    obtain ⟨_, hcolons, h⟩ := (h₃ w').1 h
    cases hcolons
    obtain ⟨d₄, hresolve, h⟩ := (h₄ w').1 h
    obtain ⟨e, he, rfl⟩ := (run_resolve_iff hself).1 hresolve
    exact ⟨hnone, e, he, h⟩
  · rintro ⟨hnone, e, he, h⟩
    have hresolve := (h₄ w').2 ⟨_, (run_resolve_iff hself).2 ⟨e, he, rfl⟩, h⟩
    have hcolons := (h₃ w').2 ⟨_, rfl, hresolve⟩
    rw [hnone] at hattach
    exact ⟨_, rfl, (h₂ w').2 ⟨_, hattach, hcolons⟩⟩

/-- **The passes on one draft** run through just if there is something that they make
    of it, and then change nothing else. -/
theorem refine_multi_iff : ∃ evs, ∀ w', refine id Pass.multi w = (w', none) ↔
    ∃ d, w.Attains raw d ∧ w' = w.put id { d with attached := (w.attaching raw).1 } evs := by
  obtain ⟨evs, h⟩ := refine_multi_resolved hraw hnew hself
  cases he : raw.wrap.useColons.resolve (w.attachments (w.attaching raw).1) with
  | error fault =>
    refine ⟨[], fun w' => ?_⟩
    simp [h, Attains, Refines, he]
  | ok e =>
    obtain ⟨evs', h'⟩ :=
      refine_put_cons hraw { e with attached := (w.attaching raw).1 } .promote [] evs
    refine ⟨evs', fun w' => ?_⟩
    simp only [h, Attains, Refines, he, Except.ok.injEq, exists_eq_left', h', run_promote_iff]
    constructor
    · rintro ⟨hnone, _, ⟨d, hd, rfl⟩, hnil⟩
      cases hnil
      exact ⟨d, ⟨hnone, hd⟩, rfl⟩
    · rintro ⟨d, ⟨hnone, hd⟩, rfl⟩
      exact ⟨hnone, _, ⟨d, hd, rfl⟩, rfl⟩

end

/-! ## Imports that are all there -/

/-- What the passes make of a draft in a workspace. -/
def Makes (w : Workspace) (raw d : Draft) : Prop :=
  KeysApart raw.imports ∧ Refines (raw.linked w.extension w.final) raw d

section
variable {w : Workspace} {raw : Draft}
  (himports : ∀ i ∈ raw.imports, ∃ j, w.imported? raw i = some j)
include himports

theorem attaching_eq_iff {a : Table DraftId} :
    w.attaching raw = (a, none) ↔ KeysApart raw.imports ∧ a = w.linksOf raw :=
  attachAll_eq_linksOf_iff himports

theorem attaching_eq_none_iff : (w.attaching raw).2 = none ↔ KeysApart raw.imports := by
  have hiff := fun a => attaching_eq_iff himports (a := a)
  constructor
  · intro h
    exact ((hiff (w.attaching raw).1).1 (Prod.ext rfl h)).1
  · intro h
    rw [(hiff (w.linksOf raw)).2 ⟨h, rfl⟩]

theorem attaching_eq_linksOf (h : KeysApart raw.imports) : (w.attaching raw).1 = w.linksOf raw := by
  rw [(attaching_eq_iff himports).2 ⟨h, rfl⟩]

theorem attains_iff_makes : w.Attains raw d ↔ w.Makes raw d := by
  rw [Attains, Makes, attaching_eq_none_iff himports]
  refine and_congr_right fun hkeys => ?_
  rw [attaching_eq_linksOf himports hkeys, ← detach_attachments_linksOf himports,
    refines_detach_iff]

theorem refine_multi_eq_none_iff (hraw : w.draft? id = some raw) (hnew : raw.attached = .empty)
    (hself : ∀ i ∈ raw.imports, w.imported? raw i ≠ some id) :
    ∃ evs, ∀ w', refine id Pass.multi w = (w', none) ↔
      ∃ d, w.Makes raw d ∧ w' = w.put id { d with attached := w.linksOf raw } evs := by
  obtain ⟨evs, h⟩ := refine_multi_iff hraw hnew hself
  refine ⟨evs, fun w' => (h w').trans (exists_congr fun d => ?_)⟩
  rw [attains_iff_makes himports]
  refine and_congr_right fun hmakes => ?_
  rw [attaching_eq_linksOf himports hmakes.1]

end

/-! ## Several drafts -/

/-- What the passes make of a draft depends on the drafts that it imports. -/
theorem attains_congr (h : w.SameFiles w') {raw : Draft}
    (himports : ∀ i ∈ raw.imports, ∀ j, w.imported? raw i = some j → w'.draft? j = w.draft? j) :
    w'.Attains raw d ↔ w.Attains raw d := by
  have hattached : w'.attachments (w.attaching raw).1 = w.attachments (w.attaching raw).1 := by
    refine filterMap_congr fun e he => ?_
    obtain ⟨i, hi, -, hj⟩ := exists_import_of_attaching he
    rw [himports i hi e.2 hj]
  rw [Attains, Attains, h.attaching, hattached]

/-- Drafts with nothing attached, in an order. -/
structure Pending (w : Workspace) (ids : List DraftId) : Prop where
  ordered : w.Ordered ids
  draft : ∀ id ∈ ids, ∃ raw, w.draft? id = some raw ∧ raw.attached = .empty

section
variable {start : Workspace} {ids : List DraftId} (hstart : start.Pending ids) {rest : List DraftId}
  {id : DraftId}
include hstart

variable {done : List DraftId}

theorem Pending.not_mem (hids : ids = done ++ id :: rest) :
    id ∉ done ∧ id ∉ rest ∧ ∀ j ∈ done, j ∉ rest := by
  have hnodup := hstart.ordered.nodup
  rw [hids, nodup_append, nodup_cons] at hnodup
  obtain ⟨-, ⟨hrest, -⟩, hapart⟩ := hnodup
  refine ⟨fun hmem => hapart id hmem id mem_cons_self rfl, hrest, fun j hj hmem => ?_⟩
  exact hapart j hj j (mem_cons_of_mem _ hmem) rfl

/-- The next draft, when some are done. -/
theorem Pending.next (hids : ids = done ++ id :: rest)
    (hsame : start.SameFiles w) (hnew : w.draft? id = start.draft? id) :
    ∃ raw, start.draft? id = some raw ∧ w.draft? id = some raw ∧ raw.attached = .empty ∧
      (∀ i ∈ raw.imports, ∀ j, w.imported? raw i = some j → j ∈ done ∧ j ≠ id ∧ j ∉ rest) := by
  obtain ⟨raw, hraw, hatt⟩ := hstart.draft id (by rw [hids]; simp)
  obtain ⟨hid, -, hapart⟩ := hstart.not_mem hids
  refine ⟨raw, hraw, hnew.trans hraw, hatt, fun i hi j hj => ?_⟩
  rw [hsame.imported?] at hj
  have hdone := hstart.ordered.before hids hraw i hi j hj
  exact ⟨hdone, fun heq => hid (heq ▸ hdone), hapart j hdone⟩

omit hstart in
theorem draft?_put_of_not_mem (hid : id ∉ rest)
    (hnew : ∀ x ∈ id :: rest, w.draft? x = start.draft? x) (d : Draft) (evs : List Event) :
    ∀ x ∈ rest, (w.put id d evs).draft? x = start.draft? x := by
  intro x hx
  have hne : x ≠ id := by rintro rfl; exact hid hx
  rw [draft?_put_of_ne w hne]
  exact hnew x (mem_cons_of_mem _ hx)

/-- **The passes over drafts in the order of their imports** make of each what they
    make of it in the finished workspace. -/
theorem attains_refineEach (done : List DraftId) (hids : ids = done ++ rest)
    (hsame : start.SameFiles w) (hnew : ∀ id ∈ rest, w.draft? id = start.draft? id)
    (h : refineEach Pass.multi rest w = (w', none)) :
    start.SameFiles w' ∧ (∀ j ∉ rest, w'.draft? j = w.draft? j) ∧
      ∀ id ∈ rest, ∀ raw, start.draft? id = some raw →
        ∃ d, w'.Attains raw d ∧
          w'.draft? id = some { d with attached := (start.attaching raw).1 } := by
  induction rest generalizing done w with
  | nil =>
    rw [refineEach] at h
    cases h
    exact ⟨hsame, fun _ _ => rfl, by simp⟩
  | cons id rest ih =>
    obtain ⟨raw, hraw₀, hraw, hatt, hbefore⟩ := hstart.next hids hsame (hnew id mem_cons_self)
    have hself : ∀ i ∈ raw.imports, w.imported? raw i ≠ some id :=
      fun i hi hj => (hbefore i hi id hj).2.1 rfl
    rw [refineEach] at h
    split at h
    · cases h
    · next w₁ hone =>
      obtain ⟨evs, hiff⟩ := refine_multi_iff hraw hatt hself
      obtain ⟨d, hattains, rfl⟩ := (hiff w₁).1 hone
      obtain ⟨-, hid, -⟩ := hstart.not_mem hids
      obtain ⟨hsame', hother, hall⟩ := ih (done ++ [id]) (by rw [hids]; simp)
        (hsame.trans (sameFiles_put w id _ evs)) (draft?_put_of_not_mem hid hnew _ evs) h
      refine ⟨hsame', fun j hj => ?_, fun x hx raw' hraw' => ?_⟩
      · simp only [mem_cons, not_or] at hj
        rw [hother j hj.2, draft?_put_of_ne w hj.1]
      · rcases mem_cons.1 hx with rfl | hx
        · rw [hraw₀] at hraw'
          cases hraw'
          refine ⟨d, ?_, ?_⟩
          -- its imports were done before it, and have not changed since
          · refine (attains_congr (hsame.symm.trans hsame') fun i hi j hj => ?_).2 hattains
            obtain ⟨-, hne, hrest⟩ := hbefore i hi j hj
            rw [hother j hrest, draft?_put_of_ne w hne]
          · rw [hother x hid, draft?_put_self hraw, hsame.attaching]
        · exact hall x hx raw' hraw'

end

/-- Drafts that have just been read, with all that they import, in an order. -/
structure Ready (w : Workspace) (ids : List DraftId) : Prop where
  tidy : w.Tidy
  ordered : w.Ordered ids
  draft : ∀ id ∈ ids, ∃ raw, w.draft? id = some raw ∧ raw.attached = .empty ∧
    ∀ i ∈ raw.imports, ∃ j, w.imported? raw i = some j

section
variable {start : Workspace} {ids : List DraftId} (hstart : start.Ready ids)
include hstart

theorem Ready.pending : start.Pending ids := by
  refine ⟨hstart.ordered, fun id hid => ?_⟩
  obtain ⟨raw, hraw, hatt, -⟩ := hstart.draft id hid
  exact ⟨raw, hraw, hatt⟩

theorem Ready.imported? (hid : id ∈ ids) {raw : Draft} (hraw : start.draft? id = some raw)
    (hsame : start.SameFiles w) : ∀ i ∈ raw.imports, ∃ j, w.imported? raw i = some j := by
  obtain ⟨raw', hraw', -, himports⟩ := hstart.draft id hid
  cases hraw.symm.trans hraw'
  intro i hi
  rw [hsame.imported?]
  exact himports i hi

/-- The same, if all imports are there. -/
theorem makes_refineEach (h : refineEach Pass.multi ids start = (w', none)) :
    start.SameFiles w' ∧ ∀ id ∈ ids, ∀ raw, start.draft? id = some raw →
      ∃ d, w'.Makes raw d ∧ w'.draft? id = some { d with attached := start.linksOf raw } := by
  obtain ⟨hsame, -, hall⟩ :=
    attains_refineEach hstart.pending [] rfl (.refl start) (fun _ _ => rfl) h
  refine ⟨hsame, fun id hid raw hraw => ?_⟩
  obtain ⟨d, hattains, hd⟩ := hall id hid raw hraw
  have hmakes := (attains_iff_makes (hstart.imported? hid hraw hsame)).1 hattains
  rw [attaching_eq_linksOf (hstart.imported? hid hraw (.refl start)) hmakes.1] at hd
  exact ⟨d, hmakes, hd⟩

/-- A draft is what it should become. -/
def Holds (w : Workspace) (final : String → Option Draft) (id : DraftId) (raw : Draft) : Prop :=
  ∃ d a, final raw.file = some d ∧ w.draft? id = some { d with attached := a }

/-- **The passes run through** if there is something that they make of each draft. -/
theorem refineEach_eq_none {final : String → Option Draft}
    (hfinal : ∀ id ∈ ids, ∀ raw, start.draft? id = some raw → ∃ d, final raw.file = some d ∧
      d.attached = .empty ∧ KeysApart raw.imports ∧
      Refines (raw.linked start.extension final) raw d)
    (done : List DraftId) {rest : List DraftId} (hids : ids = done ++ rest)
    (hsame : start.SameFiles w) (hnew : ∀ id ∈ rest, w.draft? id = start.draft? id)
    (hdone : ∀ id ∈ done, ∀ raw, start.draft? id = some raw → Holds w final id raw) :
    ∃ w', refineEach Pass.multi rest w = (w', none) ∧
      ∀ id ∈ ids, ∀ raw, start.draft? id = some raw → Holds w' final id raw := by
  induction rest generalizing done w with
  | nil =>
    rw [append_nil] at hids
    exact ⟨w, rfl, hids ▸ hdone⟩
  | cons id rest ih =>
    obtain ⟨raw, hraw₀, hraw, hatt, hbefore⟩ :=
      hstart.pending.next hids hsame (hnew id mem_cons_self)
    have himports := hstart.imported? (by rw [hids]; simp) hraw₀ hsame
    have hself : ∀ i ∈ raw.imports, w.imported? raw i ≠ some id :=
      fun i hi hj => (hbefore i hi id hj).2.1 rfl
    obtain ⟨d, hd, -, hkeys, hrefines⟩ := hfinal id (by rw [hids]; simp) raw hraw₀
    -- the drafts imported by this one are finished
    have hlinked : raw.linked start.extension final = raw.linked w.extension w.final := by
      rw [hsame.extension]
      refine linked_congr fun i hi => ?_
      obtain ⟨j, hj⟩ := himports i hi
      obtain ⟨hjdone, -, -⟩ := hbefore i hi j hj
      have hfind : start.registry.find? (Path.ofImport start.extension raw.file i.path) = some j :=
        (hsame.imported? raw i).symm.trans hj
      obtain ⟨rawj, hrawj, hfile⟩ := hstart.tidy hfind
      obtain ⟨e, a, he, hwe⟩ := hdone j hjdone rawj hrawj
      obtain ⟨e', he', hempty, -⟩ := hfinal j (by rw [hids]; simp [hjdone]) rawj hrawj
      rw [he] at he'
      cases he'
      rw [Workspace.final, draftAt?, hsame.registry, hfind, Option.bind_some, hwe,
        Option.map_some, ← hfile, he]
      exact congrArg some (detach_eq_self hempty).symm
    obtain ⟨evs, hiff⟩ := refine_multi_eq_none_iff himports hraw hatt hself
    have hone := (hiff _).2 ⟨d, ⟨hkeys, hlinked ▸ hrefines⟩, rfl⟩
    rw [refineEach, hone]
    obtain ⟨hid, hid', -⟩ := hstart.pending.not_mem hids
    refine ih (done ++ [id]) (by rw [hids]; simp) (hsame.trans (sameFiles_put w id _ evs))
      (draft?_put_of_not_mem hid' hnew _ evs) fun x hx rawx hrawx => ?_
    rcases mem_append.1 hx with hx | hx
    · obtain ⟨e, a, he, hwe⟩ := hdone x hx rawx hrawx
      have hne : x ≠ id := fun heq => hid (heq ▸ hx)
      exact ⟨e, a, he, (draft?_put_of_ne w hne _ _).trans hwe⟩
    · rw [mem_singleton.1 hx] at hrawx ⊢
      rw [hraw₀] at hrawx
      cases hrawx
      exact ⟨d, _, hd, draft?_put_self hraw _ _⟩

end

end Workspace

end MessageSchema
