/-
  The passes leave declarations where they stand.

  Every step from the text of a file to a refined workspace keeps its drafts at the places
  `Q`, and a fault that ends it is at one of them too.  The passes fail with taken local
  names, namespaces that are missing or numbers that are too wide, and with nothing else.

  * `Draft.Placed.wrap`, ..., `Draft.leaves_promote`: one lemma for each pass.
-/
import MessageSchema.Proofs.Arising
import MessageSchema.Proofs.Loading
import MessageSchema.Proofs.Passes
import MessageSchema.Proofs.Places

namespace MessageSchema

open List Option Draft

/-- The classes of the faults of the passes. -/
def Pass.codes : List Code := [.duplicateDefinition, .pipeline, .ungrammatical]

/-- A fault of a pass, at one of the places `Q`. -/
def Fault.OfPass (Q : String → Nat → Prop) (f : Fault) : Prop := f.Placed Q ∧ f.code ∈ Pass.codes

theorem Fault.Misread.ofPass {Q : String → Nat → Prop} {f : Fault} (h : f.Misread Q) : f.OfPass Q :=
  ⟨h.1, by rw [h.2]; decide⟩

/-- What is left is good, and the fault that ended it, if there is one, is one of `F`. -/
def Leaves (F : Fault → Prop) {α : Type} (good : α → Prop) (r : α × Option Fault) : Prop :=
  good r.1 ∧ ∀ f ∈ r.2, F f

section
variable {F : Fault → Prop} {α : Type} {good : α → Prop} {a : α}

theorem Leaves.of_none (h : good a) : Leaves F good (a, none) :=
  ⟨h, fun _ hf => absurd hf (not_mem_none _)⟩

theorem Leaves.of_some (h : good a) {f : Fault} (hf : F f) : Leaves F good (a, some f) :=
  ⟨h, fun _ hg => some.inj hg ▸ hf⟩

end

namespace Draft

variable {Q : String → Nat → Prop}

/-! ## Wrapping, attaching and naming -/

variable {s : Scope}

theorem Scope.Placed.moveTo (h : s.Placed Q) (home : String) : (s.moveTo home).Placed Q :=
  ⟨forall_mem_map.2 fun m hm => ⟨(h.message m hm).origin, (h.message m hm).field⟩,
    forall_mem_map.2 fun e he => ⟨(h.enumeration e he).origin, (h.enumeration e he).value⟩,
    forall_mem_map.2 fun e he => ⟨(h.options e he).origin, (h.options e he).value⟩,
    forall_mem_map.2 h.compound⟩

theorem Scope.Placed.mapNames (h : s.Placed Q) (g : TypeName → TypeName) :
    (s.mapNames g).Placed Q := by
  refine ⟨forall_mem_map.2 fun m hm => ⟨(h.message m hm).origin, forall_mem_map.2 fun f hf => ?_⟩,
    forall_mem_map.2 fun e he => ⟨(h.enumeration e he).origin, (h.enumeration e he).value⟩,
    h.options, h.compound⟩
  have hfield := (h.message m hm).field f hf
  exact ⟨hfield.origin,
    fun hinline => hfield.inline (by rwa [FieldType.inline?_mapNames] at hinline)⟩

section
variable {d : Draft} (h : d.Placed Q)
include h

/-- The file-level namespace stands on the first line. -/
theorem Placed.wrap : d.wrap.Placed Q := by
  unfold Draft.wrap
  split
  · exact h
  · have hadopted : ∀ ns ∈ adopt d.arena.length d.top.children d.arena, ns.Placed Q := by
      refine foldlRecOn (motive := fun arena : List Namespace => ∀ ns ∈ arena, ns.Placed Q)
        _ _ h.arena ?_
      intro arena harena i _
      refine forall_mem_modify ?_ harena i
      exact fun ns hns => ⟨hns.line, hns.scope⟩
    refine ⟨.of_children _, fun ns hns => ?_, h.firstLine, h.importLine, h.link⟩
    rcases mem_append.1 hns with hns | hns
    · exact hadopted ns hns
    · obtain rfl := mem_singleton.1 hns
      exact ⟨h.firstLine, h.top.moveTo d.stem⟩

omit h in
theorem ofPass_of_attachAll {file : String} {find : Import → Option DraftId} {is : List Import}
    {seen : Table Import} {attached : Table DraftId} (his : ∀ i ∈ is, Q file i.line) {fault : Fault}
    (hfault : (attachAll file find is seen attached).2 = some fault) : fault.OfPass Q := by
  induction is generalizing seen attached with
  | nil => cases hfault
  | cons i is ih =>
    obtain ⟨hi, his⟩ := forall_mem_cons.1 his
    rw [attachAll] at hfault
    split at hfault
    · exact ih his hfault
    · split at hfault
      · cases hfault
        exact ⟨⟨_, rfl, hi⟩, mem_cons_self⟩
      · exact ih his hfault

theorem leaves_attach (find : Import → Option DraftId) :
    Leaves (Fault.OfPass Q) (Placed Q) (d.attach find) := by
  refine ⟨⟨h.top, h.arena, h.firstLine, h.importLine, fun {k id} hk => ?_⟩, fun f hf => ?_⟩
  · rcases exists_import_of_attachAll hk with ⟨i, hi, hkey, -⟩ | hk
    · show Q d.file (Model.importLine d k)
      unfold Model.importLine
      cases hfind : d.imports.find? fun i => i.key = k with
      | none => exact absurd (decide_eq_true hkey) (find?_eq_none.1 hfind i hi)
      | some j => exact h.importLine j (mem_of_find?_eq_some hfind)
    · exact h.link hk
  · exact ofPass_of_attachAll h.importLine hf

theorem Placed.useColons : d.useColons.Placed Q := by
  refine ⟨h.top.mapNames _, fun ns hns => ?_, h.firstLine, h.importLine, h.link⟩
  obtain ⟨ns, hns', rfl⟩ := mem_map.1 hns
  exact ⟨(h.arena ns hns').line, (h.arena ns hns').scope.mapNames _⟩

theorem lands_resolve (imports : List (String × Draft)) :
    Lands (Fault.OfPass Q) (Placed Q) (d.resolve imports) := by
  unfold resolve
  split
  · have hnamed : ∀ ns ∈ d.walk.foldl nameSite d.arena, ns.Placed Q := by
      refine foldlRecOn (motive := fun arena : List Namespace => ∀ ns ∈ arena, ns.Placed Q)
        _ _ h.arena ?_
      intro arena harena v _
      refine forall_mem_modify ?_ harena _
      exact fun ns hns => ⟨hns.line, hns.scope⟩
    refine ⟨h.top, ?_, h.firstLine, h.importLine, h.link⟩
    refine foldlRecOn (motive := fun arena : List Namespace => ∀ ns ∈ arena,
      ns.Placed Q) _ _ hnamed ?_
    intro arena harena v _
    refine forall_mem_modify ?_ harena _
    exact fun ns hns => ⟨hns.line, hns.scope.mapNames _⟩
  · exact ⟨⟨1, rfl, h.firstLine⟩, mem_cons_of_mem _ mem_cons_self⟩

end

/-! ## Promotion -/

/-- What an inline type becomes stands where its field does. -/
theorem Field.Placed.lands_promote {f : Field} (h : f.Placed Q) (home : Option String)
    (message : String) :
    Lands (Fault.Misread Q) (fun r : Field × List Enumeration => r.1.Placed Q ∧
      ∀ e ∈ r.2, e.Placed Q)
      (f.promote home message) := by
  unfold Field.promote
  split
  · exact ⟨h, forall_mem_nil _⟩
  · next kind vs hinline =>
    have hdeclaration : Lands (Fault.Misread Q) (Enumeration.Placed Q)
        (f.declaration message kind vs) :=
      (lands_numberFrom (h.inline hinline)).bind fun values hvalues => ⟨h.origin, hvalues⟩
    refine hdeclaration.bind fun e he =>
      ⟨⟨h.origin, fun {k us} hk => ?_⟩, forall_mem_singleton.2 he⟩
    -- nothing is left to be promoted
    have hnone := FieldType.hasInline_replaceInline ⟨QualifiedName.join home e.name, true⟩ f.type
    rw [← FieldType.isSome_inline?, hk] at hnone
    cases hnone

theorem leaves_promoteFields (home : Option String) (message : String) {fs : List Field}
    (h : ∀ f ∈ fs, f.Placed Q) :
    (∀ f ∈ (promoteFields home message fs).1, f.Placed Q) ∧ Leaves (Fault.Misread Q)
      (fun new : List Enumeration => ∀ e ∈ new, e.Placed Q) (promoteFields home message fs).2 := by
  induction fs with
  | nil => exact ⟨forall_mem_nil _, .of_none (forall_mem_nil _)⟩
  | cons f fs ih =>
    obtain ⟨hf, hfs⟩ := forall_mem_cons.1 h
    obtain ⟨hfields, hnew, hfault⟩ := ih hfs
    have hpromote := hf.lands_promote home message
    rw [promoteFields]
    split
    · next fault heq => exact ⟨h, .of_some (forall_mem_nil _) (hpromote.of_error heq)⟩
    · next f' new heq =>
      obtain ⟨hf', hnew'⟩ := hpromote.of_ok heq
      exact ⟨forall_mem_cons.2 ⟨hf', hfields⟩, forall_mem_append.2 ⟨hnew', hnew⟩, hfault⟩

theorem leaves_promoteMessages (home : Option String) {ms : List Message}
    (h : ∀ m ∈ ms, m.Placed Q) :
    (∀ m ∈ (promoteMessages home ms).1, m.Placed Q) ∧
      Leaves (Fault.Misread Q) (fun new : List Enumeration => ∀ e ∈ new, e.Placed Q)
        (promoteMessages home ms).2 := by
  induction ms with
  | nil => exact ⟨forall_mem_nil _, .of_none (forall_mem_nil _)⟩
  | cons m ms ih =>
    obtain ⟨hm, hms⟩ := forall_mem_cons.1 h
    obtain ⟨hmessages, hmore, hlater⟩ := ih hms
    obtain ⟨hfields, hnew, hfault⟩ := leaves_promoteFields home m.name hm.field
    rw [promoteMessages]
    simp only
    split
    · next fault heq => exact ⟨forall_mem_cons.2 ⟨⟨hm.origin, hfields⟩, hms⟩, hnew, heq ▸ hfault⟩
    · exact ⟨forall_mem_cons.2 ⟨⟨hm.origin, hfields⟩, hmessages⟩, forall_mem_append.2 ⟨hnew, hmore⟩,
        hlater⟩

theorem Scope.Placed.leaves_promote {s : Scope} (h : s.Placed Q) (home : Option String) :
    Leaves (Fault.Misread Q) (Scope.Placed Q) (s.promote home) := by
  obtain ⟨hmessages, hnew, hfault⟩ := leaves_promoteMessages home h.message
  refine ⟨⟨hmessages, ?_, ?_, h.compound⟩, hfault⟩
  · exact forall_mem_append.2 ⟨h.enumeration, fun e he => hnew e (mem_filter.1 he).1⟩
  · exact forall_mem_append.2 ⟨h.options, fun e he => hnew e (mem_filter.1 he).1⟩

theorem leaves_promoteAt (is : List Nat) {arena : List Namespace} (h : ∀ ns ∈ arena, ns.Placed Q) :
    Leaves (Fault.Misread Q) (fun arena : List Namespace => ∀ ns ∈ arena, ns.Placed Q)
      (promoteAt is arena) := by
  induction is generalizing arena with
  | nil => exact .of_none h
  | cons i is ih =>
    rw [promoteAt]
    split
    · exact ih h
    · next ns hns =>
      have hplaced := h ns (mem_of_getElem? hns)
      obtain ⟨hscope, hfault⟩ := hplaced.scope.leaves_promote ns.qualified
      have harena : ∀ x ∈ arena.set i { ns with scope := (ns.scope.promote ns.qualified).1 },
          x.Placed Q := by
        intro x hx
        rcases mem_or_eq_of_mem_set hx with hx | rfl
        · exact h x hx
        · exact ⟨hplaced.line, hscope⟩
      simp only
      split
      · next heq => exact ⟨harena, heq ▸ hfault⟩
      · exact ih harena

theorem leaves_promote {d : Draft} (h : d.Placed Q) :
    Leaves (Fault.Misread Q) (Placed Q) d.promote := by
  obtain ⟨htop, hfault⟩ := h.top.leaves_promote none
  obtain ⟨harena, hlater⟩ := leaves_promoteAt (d.walk.map (·.site.index)) h.arena
  rw [promote]
  simp only
  split
  · next heq => exact ⟨⟨htop, h.arena, h.firstLine, h.importLine, h.link⟩, heq ▸ hfault⟩
  · exact ⟨⟨htop, harena, h.firstLine, h.importLine, h.link⟩, hlater⟩

end Draft

/-! ## Workspaces -/

variable {Q : String → Nat → Prop}

/-- **A pass keeps a draft at its places**, and breaks down, if it does, for a fault at one
    of them. -/
theorem Pass.placed_run {p : Pass} (hp : p ∈ multi) (w : Workspace) {d : Draft} (h : d.Placed Q) :
    (p.run w d).1.Placed Q ∧ ∀ b ∈ (p.run w d).2, ∃ fault, b = .fault fault ∧ fault.OfPass Q := by
  have hbreak : ∀ {r : Draft × Option Fault}, Leaves (Fault.OfPass Q) (Placed Q) r →
      ∀ b ∈ r.2.map Breakdown.fault, ∃ fault, b = .fault fault ∧ fault.OfPass Q := by
    intro r hr b hb
    obtain ⟨fault, hfault, rfl⟩ := map_eq_some_iff.1 hb
    exact ⟨fault, rfl, hr.2 fault hfault⟩
  simp only [multi, mem_cons, not_mem_nil, or_false] at hp
  rcases hp with rfl | rfl | rfl | rfl | rfl
  · exact ⟨h.wrap, fun _ hb => absurd hb (not_mem_none _)⟩
  · have hattach := leaves_attach h (w.imported? d)
    exact ⟨hattach.1, hbreak hattach⟩
  · exact ⟨h.useColons, fun _ hb => absurd hb (not_mem_none _)⟩
  · have hresolve := lands_resolve h (w.attachedTo d)
    simp only [resolve]
    split
    · next d' heq => exact ⟨hresolve.of_ok heq, fun _ hb => absurd hb (not_mem_none _)⟩
    · next fault heq =>
      refine ⟨h, fun b hb => ⟨fault, (some.inj hb).symm, hresolve.of_error heq⟩⟩
  · obtain ⟨hplaced, hfaults⟩ := leaves_promote h
    exact ⟨hplaced, hbreak ⟨hplaced, fun f hf => (hfaults f hf).ofPass⟩⟩

namespace Workspace

/-- All drafts stand at the places `Q`. -/
def Placed (Q : String → Nat → Prop) (w : Workspace) : Prop := ∀ d ∈ w.drafts, d.Placed Q

variable {w : Workspace} {d : Draft}

theorem Placed.draft? (h : w.Placed Q) {id : DraftId} (hd : w.draft? id = some d) : d.Placed Q :=
  h d (mem_of_getElem? hd)

theorem Placed.runPass (h : w.Placed Q) {p : Pass} (hp : p ∈ Pass.multi) (id : DraftId) :
    (w.runPass p id).1.Placed Q ∧ ∀ b ∈ (w.runPass p id).2, ∃ fault, b = .fault fault ∧
      fault.OfPass Q := by
  unfold Workspace.runPass
  split
  · exact ⟨h, fun _ hb => absurd hb (not_mem_none _)⟩
  · next d hd =>
    obtain ⟨hplaced, hbreak⟩ := Pass.placed_run hp w (h.draft? hd)
    refine ⟨fun x hx => ?_, hbreak⟩
    rcases mem_or_eq_of_mem_set hx with hx | rfl
    · exact h x hx
    · exact hplaced

theorem leaves_refine (id : DraftId) {ps : List Pass} (hps : ps ⊆ Pass.multi) (h : w.Placed Q) :
    Leaves (Fault.OfPass Q) (Placed Q) (refine id ps w) := by
  induction ps generalizing w with
  | nil => exact .of_none h
  | cons p ps ih =>
    obtain ⟨hp, hps⟩ := cons_subset.1 hps
    obtain ⟨hplaced, hbreak⟩ := Placed.runPass (w := w.note (.running p.name (w.fileOf id))) h hp id
    rw [refine]
    simp only
    split
    · next b heq =>
      obtain ⟨fault, rfl, hfault⟩ := hbreak b heq
      exact .of_some hplaced hfault
    · exact ih hps hplaced

theorem leaves_refineEach (ids : List DraftId) (h : w.Placed Q) :
    Leaves (Fault.OfPass Q) (Placed Q) (refineEach Pass.multi ids w) := by
  induction ids generalizing w with
  | nil => exact .of_none h
  | cons id ids ih =>
    have hone := leaves_refine id (Subset.refl Pass.multi) h
    rw [refineEach]
    split
    · next w' fault heq => exact heq ▸ hone
    · next w' heq => exact ih (heq ▸ hone).1

/-- **The passes fail with a fault of one of three classes.** -/
theorem code_of_refineEach {w' : Workspace} {ids : List DraftId} {fault : Fault}
    (h : refineEach Pass.multi ids w = (w', some fault)) : fault.code ∈ Pass.codes := by
  have hscope : ∀ s : Scope, s.Placed fun _ _ => True := fun s =>
    ⟨fun _ _ => ⟨trivial, fun _ _ => ⟨trivial, fun _ _ _ => trivial⟩⟩,
      fun _ _ => ⟨trivial, fun _ _ => trivial⟩, fun _ _ => ⟨trivial, fun _ _ => trivial⟩,
      fun _ _ => trivial⟩
  have hplaced : w.Placed fun _ _ => True := fun d _ =>
    ⟨hscope _, fun _ _ => ⟨trivial, hscope _⟩, trivial, fun _ _ => trivial, fun _ => trivial⟩
  have hleaves := leaves_refineEach ids hplaced
  rw [h] at hleaves
  exact (hleaves.2 fault rfl).2

/-! ### The order of the files -/

/-- A cycle of imports is reported at one of them. -/
theorem lands_sortImports {visit : String → DraftId → Sorted → Except Fault Sorted}
    (hvisit : ∀ path id s, Lands (Fault.Placed Q) (fun _ => True) (visit path id s))
    (stack : List String) {is : List Import} (his : ∀ i ∈ is, Q d.file i.line) (s : Sorted) :
    Lands (Fault.Placed Q) (fun _ => True) (sortImports w visit stack d is s) := by
  induction is generalizing s with
  | nil => trivial
  | cons i is ih =>
    obtain ⟨hi, his⟩ := forall_mem_cons.1 his
    rw [sortImports]
    split
    · exact ih his s
    · split
      · exact ⟨_, rfl, hi⟩
      · exact (hvisit _ _ s).bind fun s' _ => ih his s'

theorem lands_sortFrom (h : w.Placed Q) (depth : Nat) (stack : List String) (path : String)
    (id : DraftId) (s : Sorted) :
    Lands (Fault.Placed Q) (fun _ => True) (sortFrom w depth stack path id s) := by
  induction depth generalizing stack path id s with
  | zero => trivial
  | succ depth ih =>
    rw [sortFrom]
    split
    · trivial
    · split
      · trivial
      · next d hd =>
        have hsorted := lands_sortImports (w := w) (ih (stack ++ [path])) (stack ++ [path])
          (h.draft? hd).importLine s
        exact hsorted.bind fun _ _ => trivial

theorem lands_order (h : w.Placed Q) : Lands (Fault.Placed Q) (fun _ => True) w.order := by
  have hall : ∀ es s, Lands (Fault.Placed Q) (fun _ => True) (w.sortAll es s) := by
    intro es
    induction es with
    | nil => exact fun _ => trivial
    | cons e es ih => exact fun s => (lands_sortFrom h _ _ _ _ s).bind fun s' _ => ih s'
  exact (hall _ _).bind fun _ _ => trivial

/-- **Refining a workspace keeps its drafts at their places**, and the fault that ends it
    is at one of them. -/
theorem leaves_refineAll (h : w.Placed Q) :
    w.refineAll.1.Placed Q ∧ Lands (Fault.Placed Q) (fun _ => True) w.refineAll.2 := by
  have horder := lands_order h
  unfold refineAll
  split
  · next fault heq => exact ⟨h, horder.of_error heq⟩
  · next ids _ =>
    have hpasses := leaves_refineEach ids h
    split
    · next w' fault heq =>
      rw [heq] at hpasses
      exact ⟨hpasses.1, (hpasses.2 fault rfl).1⟩
    · next w' heq =>
      rw [heq] at hpasses
      exact ⟨hpasses.1, trivial⟩

end Workspace

/-! ## Loading -/

namespace Loading

variable {fs : FileSystem} {d : Draft} {is : List Import} {l : Loading}
  {r : Loading × Option Interruption} {files : List String} {path text : String}

theorem Runs.reads_subset (h : Runs fs d is l r) : l.reads ⊆ r.1.reads := by
  induction h with
  | done | missing => exact Subset.refl _
  | known _ _ ih => exact ih
  | unreadable | faulty => exact subset_append_left _ _
  | stopped _ _ _ _ _ ih => exact Subset.trans (subset_append_left _ _) ih
  | loaded _ _ _ _ _ _ ih₁ ih₂ =>
    exact Subset.trans (subset_append_left _ _) (Subset.trans ih₁ ih₂)

/-- The lines of the files among `files`. -/
def LineOf (fs : FileSystem) (files : List String) (file : String) (n : Nat) : Prop :=
  file ∈ files ∧ ∃ text, fs.texts.find? file = some text ∧ Text.HasLine text n

/-- Loading that has read `files` leaves drafts on their lines, and ends, if it does, with
    a fault on one. -/
def Good (fs : FileSystem) (files : List String) (r : Loading × Option Interruption) : Prop :=
  r.1.workspace.Placed (LineOf fs files) ∧ ∀ x ∈ r.2, ∃ fault, x = .fault fault ∧
    fault.Placed (LineOf fs files)

theorem lands_read (hpath : path ∈ files) (htext : fs.texts.find? path = some text) :
    Lands (Fault.Misread (LineOf fs files)) (Draft.Placed (LineOf fs files))
      (Draft.read path text) :=
  Draft.lands_read fun _ hn => ⟨hpath, text, htext, hn⟩

theorem placed_add (hl : l.workspace.Placed (LineOf fs files)) (hd : d.Placed (LineOf fs files))
    (path : String) : (l.add path d).workspace.Placed (LineOf fs files) :=
  forall_mem_append.2 ⟨hl, forall_mem_singleton.2 hd⟩

/-- **Loading leaves drafts on the lines of the files read.** -/
theorem Runs.good (hfs : ∀ p, fs.exists p = true → fs.texts.contains p = true)
    (h : Runs fs d is l r) (hfiles : r.1.reads ⊆ files) (hl : l.workspace.Placed (LineOf fs files))
    (his : ∀ i ∈ is, LineOf fs files d.file i.line) : Good fs files r := by
  induction h with
  | done => exact ⟨hl, fun _ hb => absurd hb (not_mem_none _)⟩
  | known _ _ ih => exact ih hfiles hl fun i hi => his i (mem_cons_of_mem _ hi)
  | missing =>
    refine ⟨hl, fun x hx => ⟨_, (some.inj hx).symm, _, rfl, his _ mem_cons_self⟩⟩
  | @unreadable d i is l path _ _ hexists hnone =>
    have hsome := hfs path hexists
    rw [(Table.contains_eq_false_iff _ _).2 hnone] at hsome
    cases hsome
  | @faulty d i is l path text fault _ _ htext hread =>
    have hpath : path ∈ files := hfiles (mem_append_right _ mem_cons_self)
    exact ⟨hl, fun x hx => ⟨fault, (some.inj hx).symm, ((lands_read hpath htext).of_error hread).1⟩⟩
  | @stopped d i is l path text e l' x _ _ htext hread hrun ih =>
    have hpath : path ∈ files :=
      hfiles (hrun.reads_subset (mem_append_right _ mem_cons_self))
    have he := (lands_read hpath htext).of_ok hread
    exact ih hfiles (placed_add (l := l.read path) hl he path) he.importLine
  | @loaded d i is l path text e l' r _ _ htext hread hrun hrest ih₁ ih₂ =>
    have hsubset := Subset.trans hrest.reads_subset hfiles
    have hpath : path ∈ files :=
      hsubset (hrun.reads_subset (mem_append_right _ mem_cons_self))
    have he := (lands_read hpath htext).of_ok hread
    have hfirst := ih₁ hsubset (placed_add (l := l.read path) hl he path) he.importLine
    exact ih₂ hfiles hfirst.1 fun j hj => his j (mem_cons_of_mem _ hj)

theorem RunsFile.good (hfs : ∀ p, fs.exists p = true → fs.texts.contains p = true)
    (htext : fs.texts.find? path = some text) (h : RunsFile fs path text l r)
    (hpath : path ∈ l.reads) (hl : l.workspace.drafts = []) : Good fs r.1.reads r := by
  have hnone : l.workspace.Placed (LineOf fs r.1.reads) := fun d hd => by
    rw [hl] at hd
    cases hd
  cases h with
  | @faulty fault hread =>
    exact ⟨hnone,
      fun x hx => ⟨fault, (some.inj hx).symm, ((lands_read hpath htext).of_error hread).1⟩⟩
  | @read d _ hread hrun =>
    have hd := (lands_read (hrun.reads_subset hpath) htext).of_ok hread
    exact hrun.good hfs (Subset.refl _) (placed_add hnone hd path) hd.importLine

end Loading

end MessageSchema
