/-
  The marks that the passes leave, and the faults of later builds.

  `w.Fresh` says that the drafts of a workspace have just been read.

  * `isRefined_refineAll`: if the passes run through, every draft is refined with
    the drafts attached to it, which are refined themselves.
-/
import MessageSchema.Proofs.LoadingClosure
import MessageSchema.Proofs.UnboundNames

namespace MessageSchema

open List Option Draft Table

namespace Workspace

/-- Every registered path stands for a draft just read from a text. -/
def Fresh (w : Workspace) : Prop :=
  ∀ p id, w.registry.find? p = some id → ∃ text d, read p text = .ok d ∧ w.draft? id = some d

/-- Every registered path stands for a draft of its file, as texts are read. -/
def AsRead (w : Workspace) : Prop :=
  ∀ p id, w.registry.find? p = some id → ∃ d, w.draft? id = some d ∧ d.AsRead ∧ d.file = p

/-- Every registered draft is refined, with the drafts attached to it. -/
structure IsRefined (w : Workspace) : Prop where
  file : ∀ {p d}, w.draftAt? p = some d → d.file = p
  refined : ∀ {p d}, w.draftAt? p = some d → ∃ raw, raw.AsRead ∧
    Refined (w.attachedTo d) raw d.detach
  attached : ∀ {p d}, w.draftAt? p = some d → ∀ e ∈ w.attachedTo d, w.draftAt? e.2.file = some e.2

theorem fresh_run {fs : FileSystem} {ext file text : String} {reads : List String} {l : Loading}
    (h : Loading.run fs file text ⟨.empty ext, reads⟩ = (l, none)) : l.workspace.Fresh := by
  obtain ⟨hloaded, -⟩ := Compilation.loaded_run (Loading.sourceOf_source fs file text)
    (Loading.source_self fs file text) h
  intro p id hp
  obtain ⟨d, hread, hd⟩ := hloaded.hasRead.draft hp
  obtain ⟨text', -, htext⟩ := readFrom_eq_some_iff.1 hread
  exact ⟨text', d, htext, hd⟩

/-! ## The passes -/

theorem Fresh.asRead {w : Workspace} (hw : w.Fresh) : w.AsRead := by
  intro p id hp
  obtain ⟨text, d, hread, hd⟩ := hw p id hp
  obtain ⟨hraw, hfile, -⟩ := read_asRead hread
  exact ⟨d, hd, hraw, hfile⟩

section
variable {w : Workspace} (hw : w.AsRead) {ids : List DraftId}
include hw

variable {w' : Workspace}

theorem AsRead.tidy : w.Tidy := by
  intro p id hp
  obtain ⟨d, hd, -, hfile⟩ := hw _ _ hp
  exact ⟨d, hd, hfile⟩

theorem AsRead.pending (hids : w.order = .ok ids) : w.Pending ids := by
  obtain ⟨hordered, -⟩ := ordered_order hw.tidy hids
  refine ⟨hordered, fun id hid => ?_⟩
  obtain ⟨p, hp⟩ := hordered.registered id hid
  obtain ⟨raw, hraw, hasRead, -⟩ := hw _ _ hp
  exact ⟨raw, hraw, hasRead.attached⟩

theorem AsRead.attains_refineAll (h : w.refineAll = (w', .ok ids)) :
    w.SameFiles w' ∧ ∀ p d, w'.draftAt? p = some d → ∃ raw d', w.draftAt? p = some raw ∧
      raw.AsRead ∧ raw.file = p ∧
      w'.Attains raw d' ∧ d = { d' with attached := (w'.attaching raw).1 } := by
  rw [refineAll] at h
  split at h
  · cases h
  · next horder =>
    split at h
    · cases h
    · next hrefine =>
      cases h
      obtain ⟨-, hall⟩ := ordered_order hw.tidy horder
      obtain ⟨hsame, -, hattains⟩ :=
        attains_refineEach (hw.pending horder) [] rfl (.refl w) (fun _ _ => rfl) hrefine
      refine ⟨hsame, fun p d hd => ?_⟩
      obtain ⟨id, hp, hid⟩ := bind_eq_some_iff.1 hd
      rw [hsame.registry] at hp
      obtain ⟨raw, hraw, hasRead, hfile⟩ := hw _ _ hp
      obtain ⟨d', hmakes, hd'⟩ := hattains id (hall hp) raw hraw
      rw [hid, some.injEq, ← hsame.attaching] at hd'
      refine ⟨raw, d', ?_, hasRead, hfile, hmakes, hd'⟩
      rw [draftAt?, hp]
      exact hraw

theorem AsRead.isRefined (h : w.refineAll = (w', .ok ids)) : w'.IsRefined := by
  obtain ⟨-, hall⟩ := hw.attains_refineAll h
  have hfile : ∀ {p d}, w'.draftAt? p = some d → d.file = p := by
    intro p d hd
    obtain ⟨raw, d', -, hraw, hp, hmakes, rfl⟩ := hall p d hd
    exact (hmakes.2.refined hraw).file.trans hp
  refine ⟨hfile, fun {p d} hd => ?_, fun {p d} hd e he => ?_⟩
  · obtain ⟨raw, d', -, hraw, -, hmakes, rfl⟩ := hall p d hd
    have hrefined := hmakes.2.refined hraw
    have hdetach : detach { d' with attached := (w'.attaching raw).1 } = d' :=
      detach_eq_self (hrefined.attached.trans hraw.attached)
    exact ⟨raw, hraw, by rw [hdetach]; exact hrefined⟩
  · obtain ⟨raw, d', -, -, -, -, rfl⟩ := hall p d hd
    obtain ⟨entry, hentry, hmap⟩ := mem_filterMap.1 he
    obtain ⟨x, hx, rfl⟩ := map_eq_some_iff.1 hmap
    obtain ⟨i, -, -, hi⟩ := exists_import_of_attaching hentry
    have hregistered : w'.draftAt? (w'.target raw i) = some x := by
      rw [draftAt?, show w'.registry.find? _ = some entry.2 from hi]
      exact hx
    rwa [hfile hregistered]

end

theorem isRefined_refineAll {w w' : Workspace} (hw : w.Fresh) {ids : List DraftId}
    (h : w.refineAll = (w', .ok ids)) : w'.IsRefined := hw.asRead.isRefined h

/-! ## Marks -/

namespace IsRefined

variable {w : Workspace} (hw : w.IsRefined) {p : String} {d : Draft} (hd : w.draftAt? p = some d)
include hw hd

theorem finished : d.Finished := by
  obtain ⟨raw, hraw, hrefined⟩ := hw.refined hd
  obtain ⟨hcovered, hqualified, hword⟩ := hrefined.finished hraw
  exact ⟨hcovered, hqualified, hword⟩

theorem declares_of_mem_entities {q : String} (hq : q ∈ d.symbols.entities) : d.Declares q := by
  obtain ⟨raw, -, hrefined⟩ := hw.refined hd
  exact hrefined.declares_of_mem_entities hq

theorem declares_of_marked {x : Mention} (hx : x ∈ d.mentions) (hmark : x.name.resolved = true) :
    d.Declares x.name.text ∨ ∃ e ∈ w.attachedTo d, e.2.Declares x.name.text := by
  obtain ⟨raw, hraw, hrefined⟩ := hw.refined hd
  rcases hrefined.marked hraw hx hmark with h | ⟨e, he, h⟩
  · exact .inl h
  · exact .inr ⟨e, he, hw.declares_of_mem_entities (hw.attached hd e he) h⟩

theorem inlineFree : d.InlineFree := by
  obtain ⟨raw, hraw, hrefined⟩ := hw.refined hd
  exact hrefined.inlineFree hraw

end IsRefined

theorem mem_values_attachedTo {w : Workspace} {d : Draft} {e : String × Draft}
    (he : e ∈ w.attachedTo d) :
    e.2.file ∈
      ((w.attachedTo d).foldl (fun t e => t.insert e.1 e.2.file)
      (.empty : Table String)).values := by
  refine (mem_values_iff _ _).2 ⟨e.1, find?_foldl_insert_of_mem he fun y hy hkey => ?_⟩
  obtain ⟨⟨k, i⟩, hi, hmap⟩ := mem_filterMap.1 he
  obtain ⟨⟨l, j⟩, hj, hmap'⟩ := mem_filterMap.1 hy
  obtain ⟨x, hx, rfl⟩ := map_eq_some_iff.1 hmap
  obtain ⟨x', hx', rfl⟩ := map_eq_some_iff.1 hmap'
  simp only at hkey hx hx' ⊢
  rw [mem_entries_iff] at hi hj
  rw [hkey, hi, some.injEq] at hj
  rw [← hj, hx, some.injEq] at hx'
  rw [hx']

end Workspace

/-! ## Builds -/

namespace Build

variable {lib : Library} {w : Workspace}

/-- A fault about an unresolved name is at a place that mentions it without a mark. -/
def Unmarked (w : Workspace) (f : Fault) : Prop :=
  f.code = .unresolvedReference → ∃ p d x context, w.draftAt? p = some d ∧ x ∈ d.mentions ∧
    x.name.resolved = false ∧ f = Model.faultAt x.place (.unresolved x.name.text context)

/-- Every model of a library is that of a registered draft. -/
def Holds (w : Workspace) (lib : Library) : Prop :=
  ∀ f m, lib.find? f = some m → ∃ d lib', w.draftAt? f = some d ∧ Model.Models lib' d m

variable {imports : Table String} {b : Build}

theorem mem_reachableFiles_self {f : String} (h : lib.contains f = true) :
    f ∈ lib.reachableFiles f :=
  (Library.reachFrom_complete lib (Library.unlisted_keys_nil_lt lib) f).1 h

theorem importedEntity?_of_declares (hlib : Holds w lib) {x : Draft}
    (hx : w.draftAt? x.file = some x) (hhas : lib.contains x.file = true)
    (himports : x.file ∈ imports.values) {q : String} (hq : x.Declares q) (d : Draft) :
    ∃ e, (Model.binderOf lib d imports).importedEntity? q = some e := by
  obtain ⟨m, hm⟩ := (contains_iff _ _).1 hhas
  obtain ⟨x', lib', hx', hmodels⟩ := hlib x.file m hm
  rw [hx, some.injEq] at hx'
  subst hx'
  obtain ⟨y, hy⟩ := hq
  have hdeclared := (Model.find?_declared_iff hmodels.finished hmodels.faultless.index).2
    (Model.mem_declarations.1 hy)
  obtain ⟨e, he, -⟩ := hmodels.own?_of_declared hdeclared
  have hmem : m ∈ (Model.binderOf lib d imports).imported :=
    mem_filterMap.2 ⟨x.file, mem_eraseDups.2
      (mem_flatMap.2 ⟨x.file, himports, mem_reachableFiles_self hhas⟩), hm⟩
  have hsome : ((Model.binderOf lib d imports).importedEntity? q).isSome = true :=
    findSome?_isSome_iff.2 ⟨m, hmem, by rw [he]; rfl⟩
  exact isSome_iff_exists.1 hsome

/-- **A model whose imports are built has no fault about a marked name.** -/
theorem unmarked_ofDraft (hw : w.IsRefined) {p : String} {d : Draft} (hd : w.draftAt? p = some d)
    (hlib : Holds w lib) (hhas : ∀ e ∈ w.attachedTo d, lib.contains e.2.file = true)
    (himports : ∀ e ∈ w.attachedTo d, e.2.file ∈ imports.values) :
    ∀ f ∈ (Model.ofDraft lib d imports).2, Unmarked w f := by
  intro f hf hcode
  obtain ⟨x, hx, context, hnone, rfl⟩ := Model.unbound_of_mem_ofDraft hf hcode
  refine ⟨p, d, x, context, hd, hx, ?_, rfl⟩
  -- a marked name would be bound
  by_contra hmark
  rw [Bool.not_eq_false] at hmark
  rw [Model.Binder.bind?, if_pos hmark] at hnone
  split at hnone
  · cases hnone
  · next hundeclared =>
    rcases hw.declares_of_marked hd hx hmark with ⟨y, hy⟩ | ⟨e, he, hdeclares⟩
    · obtain ⟨z, hz⟩ := (contains_iff _ _).1 (Model.contains_declared (hw.finished hd) hy)
      exact absurd (hz.symm.trans hundeclared) (some_ne_none z)
    · obtain ⟨entity, hentity⟩ := importedEntity?_of_declares hlib (hw.attached hd e he) (hhas e he)
        (himports e he) hdeclares d
      rw [hentity] at hnone
      cases hnone

/-- A build without a fault about a marked name. -/
structure Clean (w : Workspace) (b : Build) : Prop where
  holds : Holds w b.library
  unmarked : ∀ f ∈ b.faults, Unmarked w f

theorem Clean.fail (h : Clean w b) (file : String) {faults : List Fault}
    (hfaults : ∀ f ∈ faults, Unmarked w f) : Clean w (b.fail file faults) := by
  refine ⟨h.holds, fun f hf => ?_⟩
  rcases mem_append.1 hf with hf | hf
  · exact h.unmarked f hf
  · exact hfaults f hf

/-- A build that has gone on from another. -/
structure Follows (w : Workspace) (b b' : Build) : Prop where
  clean : Clean w b'
  keeps : ∀ {f}, b.library.contains f = true → b'.library.contains f = true

theorem steps_follows (w : Workspace) : Steps (Clean w) (Follows w) where
  refl h := ⟨h, id⟩
  trans h h' := ⟨h'.clean, fun hf => h'.keeps (h.keeps hf)⟩
  good h := h.clean
  keeps h := h.keeps

theorem follows_file (hw : w.IsRefined) (n : Nat) (chain : List String) {p : String} {d : Draft}
    (hd : w.draftAt? p = some d) (hb : Clean w b) :
    Follows w b (file w n chain d b).1 ∧
      ((file w n chain d b).2 = true → (file w n chain d b).1.library.contains d.file = true) := by
  induction n generalizing chain p d b with
  | zero => exact ⟨⟨hb, id⟩, fun h => nomatch h⟩
  | succ n ih =>
    have himport := fun (e : String × Draft) (he : e ∈ w.attachedTo d) (b : Build) hb =>
      ih (chain ++ [d.file]) (hw.attached hd e he) (b := b) hb
    -- what is wrong with a draft whose imports are built is not about marked names
    have hunmarked : ∀ {b' : Build} {done : Table String},
        (w.attachedTo d).foldl (addImport (file w n (chain ++ [d.file]))) (b, .empty, true) =
        (b', done, true) →
        Follows w b b' ∧ ∀ f ∈ (Model.ofDraft b'.library d done).2, Unmarked w f := by
      intro b' done hfold
      obtain ⟨hfollows, hall⟩ := (steps_follows w).foldl_addImport himport hfold hb
      obtain ⟨-, hhas, rfl⟩ := hall rfl
      exact ⟨hfollows, unmarked_ofDraft hw hd hfollows.clean.holds hhas
        fun e he => Workspace.mem_values_attachedTo he⟩
    have houtcome := outcome_file w n chain d b
    generalize file w (n + 1) chain d b = r at houtcome ⊢
    cases houtcome with
    | present hhas => exact ⟨⟨hb, id⟩, fun _ => hhas⟩
    | again => exact ⟨⟨hb, id⟩, fun h => nomatch h⟩
    | cycle files =>
      refine ⟨⟨hb.fail _ fun f hf hcode => ?_, id⟩, fun h => nomatch h⟩
      rw [mem_singleton.1 hf] at hcode
      cases hcode
    | unbuilt hfold =>
      obtain ⟨hfollows, -⟩ := (steps_follows w).foldl_addImport himport hfold hb
      exact ⟨⟨hfollows.clean.fail _ (by simp), hfollows.keeps⟩, fun h => nomatch h⟩
    | faulty hfold hm =>
      obtain ⟨hfollows, hfaults⟩ := hunmarked hfold
      rw [hm] at hfaults
      exact ⟨⟨hfollows.clean.fail _ hfaults, hfollows.keeps⟩, fun h => nomatch h⟩
    | @built b' done m _ _ hfold hm =>
      obtain ⟨hfollows, -⟩ := hunmarked hfold
      have himports : m.imports = done := congrArg Model.imports (Model.ofDraft_eq hm).1
      refine ⟨⟨⟨fun f m' hf => ?_, hfollows.clean.unmarked⟩, fun hf => ?_⟩, fun _ => ?_⟩
      · rw [find?_insert] at hf
        split at hf
        · next hfile =>
          cases hf
          rw [hfile, hw.file hd]
          exact ⟨d, b'.library, hd, hw.finished hd, by rw [himports]; exact hm⟩
        · exact hfollows.clean.holds f m' hf
      · exact contains_insert_iff.2 (.inr (hfollows.keeps hf))
      · exact contains_insert_iff.2 (.inl rfl)

/-- The libraries that builds of registered drafts leave behind, one after the other. -/
inductive Leaves (w : Workspace) : Library → Prop
  | empty : Leaves w .empty
  | run {lib : Library} {p : String} {d : Draft} : Leaves w lib → w.draftAt? p = some d →
      Leaves w (Build.run w lib d).1

section
variable {w : Workspace} (hw : w.IsRefined) {p : String} {d : Draft} (hd : w.draftAt? p = some d)
include hw hd

theorem clean_run (hlib : Holds w lib) :
    Holds w (run w lib d).1 ∧ ∀ r, (run w lib d).2.2 = .error r → ∀ f ∈ r.faults, Unmarked w f := by
  have hstart : Clean w { library := lib } := ⟨hlib, by simp⟩
  have hclean := (follows_file hw (w.drafts.length + 1) [] hd hstart).1.clean
  rw [run]
  generalize file w (w.drafts.length + 1) [] d { library := lib } = r at hclean
  obtain ⟨b, ok⟩ := r
  simp only at hclean ⊢
  split
  · exact ⟨hclean.holds, fun r hr => by cases hr⟩
  · refine ⟨hclean.holds, fun r hr => ?_⟩
    cases hr
    exact hclean.unmarked

end

theorem Leaves.holds (hw : w.IsRefined) (h : Leaves w lib) : Holds w lib := by
  induction h with
  | empty =>
    intro f m hm
    cases hm
  | run _ hd ih => exact (clean_run hw hd ih).1

end Build

/-- **No mark dangles.**  If the passes run through drafts that have just been read,
    every marked name of every draft is that of a declaration in the draft or in one
    that is attached to it, and no type is left inline.  Whatever is built
    afterwards, in any order, a name that is reported as unresolved has no mark. -/
theorem Workspace.refineAll_marks {w w' : Workspace} (hw : w.Fresh) {ids : List DraftId}
    (h : w.refineAll = (w', .ok ids)) {p : String} {d : Draft} (hd : w'.draftAt? p = some d) :
    (∀ x ∈ d.mentions, x.name.resolved = true →
      d.Declares x.name.text ∨ ∃ e ∈ w'.attachedTo d, e.2.Declares x.name.text) ∧
    d.InlineFree ∧
    ∀ lib, Build.Leaves w' lib → ∀ r, (Build.run w' lib d).2.2 = .error r →
      ∀ f ∈ r.faults, f.code = .unresolvedReference →
        ∃ q e x context, w'.draftAt? q = some e ∧ x ∈ e.mentions ∧ x.name.resolved = false ∧
          f = Model.faultAt x.place (.unresolved x.name.text context) := by
  have hrefined := isRefined_refineAll hw h
  refine ⟨fun x hx hmark => hrefined.declares_of_marked hd hx hmark, hrefined.inlineFree hd,
    fun lib hlib r hr => ?_⟩
  exact (Build.clean_run hrefined hd (hlib.holds hrefined)).2 r hr

/-- An order with an item of a type that is not imported. -/
def Loading.ofOrder : Loading × Option Interruption :=
  run Compilation.shop "/shop/order.def"
    "import \"party.def\" message Order : Party \x7b item: Item \x7d" ⟨.empty ".def", []⟩

def Fault.ofOrder : Fault :=
  { cause := .unresolved "Item" "field order::Order.item", file := "/shop/order.def", line := 1 }

theorem Workspace.refineAll_marks_order :
    ∃ w ids d, Loading.ofOrder.1.workspace.refineAll = (w, .ok ids) ∧
    w.draftAt? "/shop/order.def" = some d ∧
    d.mentions.map (fun x => (x.name.text, x.name.resolved)) =
      [("party::Party", true), ("Item", false)] ∧
    (d.Declares "party::Party" ∨ ∃ e ∈ w.attachedTo d, e.2.Declares "party::Party") ∧ d.InlineFree ∧
    (Build.run w .empty d).2.2 = .error ⟨[.ofOrder]⟩ ∧
    ∃ q e x context, w.draftAt? q = some e ∧ x ∈ e.mentions ∧ x.name.resolved = false ∧
      Model.faultAt x.place (.unresolved x.name.text context) = .ofOrder := by
  have hall : (Loading.ofOrder.2.isNone, Loading.ofOrder.1.workspace.refineAll.2.toOption.isSome,
      (Loading.ofOrder.1.workspace.refineAll.1.draftAt? "/shop/order.def").map fun d =>
        (d.mentions.map fun x => (x.name.text, x.name.resolved),
          (Build.run Loading.ofOrder.1.workspace.refineAll.1 .empty d).2.2)) =
      (true, true, some ([("party::Party", true), ("Item", false)], .error ⟨[.ofOrder]⟩)) := by
    decide +kernel
  rcases hload : Loading.ofOrder with ⟨l, stop⟩
  rw [hload] at hall
  simp only [Prod.mk.injEq] at hall
  obtain ⟨hend, hrefine, hdraft⟩ := hall
  obtain rfl : stop = none := isNone_iff_eq_none.1 hend
  have hfresh : l.workspace.Fresh := fresh_run hload
  simp only
  rcases hrun : l.workspace.refineAll with ⟨w, result⟩
  rw [hrun] at hrefine hdraft
  obtain ⟨d, hd, hboth⟩ := map_eq_some_iff.1 hdraft
  obtain ⟨hmentions, herror⟩ := Prod.mk.inj hboth
  cases result with
  | error fault => cases hrefine
  | ok ids =>
    obtain ⟨hmarks, hinline, hbuild⟩ := refineAll_marks hfresh hrun hd
    obtain ⟨x, hx, hname⟩ := mem_map.1 (hmentions ▸ mem_cons_self)
    obtain ⟨htext, hmark⟩ := Prod.mk.inj hname
    obtain ⟨q, e, y, context, hq, hy, hplain, heq⟩ :=
      hbuild .empty .empty _ herror _ (mem_singleton.2 rfl) rfl
    exact ⟨w, ids, d, rfl, hd, hmentions, htext ▸ hmarks x hx hmark, hinline, herror, q, e, y,
      context, hq, hy, hplain, heq.symm⟩

end MessageSchema
