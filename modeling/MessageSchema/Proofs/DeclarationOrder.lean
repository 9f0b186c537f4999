/-
  The order of declarations plays no part in what is built.

  `d.Reordered e` says that `e` has in every scope the messages, enumerations, sets of
  flags and compounds that `d` has there, in any order, and is the same otherwise.  Then
  the passes and the build succeed on both or on neither, and every file binds every
  name to the same entity.
-/
import MessageSchema.Proofs.Mirroring

namespace MessageSchema

open List

namespace Draft

/-! ## Declarations in another order -/

/-- Two scopes have the same declarations, in any order. -/
structure Scope.Reordered (s t : Scope) : Prop where
  messages : s.messages.Perm t.messages
  enums : s.enums.Perm t.enums
  options : s.options.Perm t.options
  compounds : s.compounds.Perm t.compounds
  children : s.children = t.children

/-- Two namespaces are the same up to the order of declarations. -/
structure Namespace.Reordered (m n : Namespace) : Prop where
  scope : m.scope.Reordered n.scope
  rest : n = { m with scope := n.scope }

/-- Two drafts are the same up to the order of declarations inside each scope. -/
structure Reordered (d e : Draft) : Prop where
  top : d.top.Reordered e.top
  arena : Forall₂ Namespace.Reordered d.arena e.arena
  rest : e = { d with top := e.top, arena := e.arena }

variable {s t : Scope} {m n : Namespace} {d e : Draft}

theorem Scope.Reordered.symm (h : s.Reordered t) : t.Reordered s :=
  ⟨h.messages.symm, h.enums.symm, h.options.symm, h.compounds.symm, h.children.symm⟩

theorem Namespace.Reordered.symm (h : m.Reordered n) : n.Reordered m := by
  refine ⟨h.scope.symm, ?_⟩
  rw [h.rest]

theorem Reordered.symm (h : d.Reordered e) : e.Reordered d := by
  refine ⟨h.top.symm, h.arena.flip.imp fun _ _ => .symm, ?_⟩
  rw [h.rest]

theorem Scope.Reordered.mirrors (h : s.Reordered t) (g : Origin → Origin) : s.Mirrors g t :=
  ((((h.messages.map _).append (h.enums.map _)).append (h.options.map _)).append
    (h.compounds.map _)).map _

/-! ## The passes -/

/-- **The passes keep the order of declarations apart from all else.** -/
theorem Namespace.likeness_reordered : Likeness Reordered where
  same {m n} h := by
    refine ⟨⟨h.scope.children, fun k => ?_⟩, by rw [h.rest]⟩
    have hmessages := h.scope.messages.flatMap_right Message.declared
    exact (((hmessages.append (h.scope.enums.map _)).append (h.scope.options.map _)).append
      (h.scope.compounds.map _)).mem_iff
  declaresNothing h := by
    rw [Scope.declaresNothing, Scope.declaresNothing, h.scope.messages.isEmpty_eq,
      h.scope.enums.isEmpty_eq, h.scope.options.isEmpty_eq, h.scope.compounds.isEmpty_eq]
  adopt _ h := ⟨h.scope, by rw [h.rest]⟩
  moveTo h :=
    ⟨⟨h.scope.messages.map _, h.scope.enums.map _, h.scope.options.map _, h.scope.compounds.map _,
    h.scope.children⟩, by rw [h.rest]⟩
  promotable h hm x hx := hm x (h.scope.messages.mem_iff.2 hx)

theorem Namespace.Matched.mirrors_reordered (g : Origin → Origin)
    (h : m.Matched Namespace.Reordered n) : m.scope.Mirrors g n.scope := by
  obtain @⟨m, n, f, q, h, -, -⟩ := h
  have hnew : (promotions (m.scope.mapNames f).messages).Perm
      (promotions (n.scope.mapNames f).messages) := by
    rw [promotions_mapNames, promotions_mapNames]
    exact h.scope.messages.flatMap_right _
  have hscope : Scope.Reordered ((m.scope.mapNames f).promoted (some q))
      ((n.scope.mapNames f).promoted (some q)) :=
    ⟨(h.scope.messages.map _).map _, (h.scope.enums.map _).append (hnew.filter _),
      h.scope.options.append (hnew.filter _), h.scope.compounds, h.scope.children⟩
  exact hscope.mirrors g

theorem Reordered.related (h : d.Reordered e) : d.Related Namespace.Reordered e :=
  ⟨⟨h.top, by rw [h.rest]; rfl⟩, h.arena, by rw [h.rest], by rw [h.rest]⟩

theorem Scope.Reordered.asRead (h : s.Reordered t) (hs : s.AsRead) : t.AsRead where
  message m hm := hs.message m (h.messages.mem_iff.2 hm)
  enumeration e he := hs.enumeration e (h.enums.mem_iff.2 he)
  options e he := hs.options e (h.options.mem_iff.2 he)
  compoundName c hc := hs.compoundName c (h.compounds.mem_iff.2 hc)

theorem Reordered.asRead (h : d.Reordered e) (hd : d.AsRead) : e.AsRead := by
  have hthreads : threads d.arena = threads e.arena :=
      map_eq_of_forall₂ (h.arena.imp fun _ _ hn => by
    rw [hn.scope.children, hn.rest])
  refine ⟨h.top.asRead hd.top, fun n hn => ?_, ?_, fun n hn => ?_,
    (congrArg Draft.attached h.rest).trans hd.attached⟩
  · obtain ⟨m, hm, hmn⟩ := exists_left_of_mem h.arena hn
    exact hmn.scope.asRead (hd.arena m hm)
  · rw [← h.top.children, ← hthreads]
    exact hd.laid
  · obtain ⟨m, hm, hmn⟩ := exists_left_of_mem h.arena hn
    rw [hmn.rest]
    exact hd.isWord m hm

end Draft

/-! ## Workspaces -/

namespace Workspace

/-- Two workspaces whose drafts are the same up to the order of declarations. -/
structure Reordered (w v : Workspace) : Prop where
  drafts : Forall₂ Draft.Reordered w.drafts v.drafts
  registry : v.registry = w.registry
  extension : v.extension = w.extension

variable {w v : Workspace}

theorem Reordered.symm (h : w.Reordered v) : v.Reordered w :=
  ⟨h.drafts.flip.imp fun _ _ => .symm, h.registry.symm, h.extension.symm⟩

theorem Reordered.related (h : w.Reordered v) :
    w.Related (Draft.Related Draft.Namespace.Reordered) v :=
  ⟨h.drafts.imp fun _ _ hd => hd.related, h.registry, h.extension⟩

theorem Reordered.asRead (h : w.Reordered v) (hw : w.AsRead) : v.AsRead := by
  intro p id hp
  rw [h.registry] at hp
  obtain ⟨d, hd, hread, hfile⟩ := hw p id hp
  have hrel : Option.Rel Draft.Reordered (w.draft? id) (v.draft? id) := rel_getElem? h.drafts id
  rw [hd] at hrel
  obtain ⟨hnone, -⟩ | ⟨d', e, hd', he, hde⟩ := rel_cases hrel
  · cases hnone
  · cases hd'
    exact ⟨e, he, hde.asRead hread, (congrArg Draft.file hde.rest).trans hfile⟩

/-- **A library is given in any order of declarations**, up to the order in it. -/
theorem Reordered.gives (hw : w.AsRead) (h : w.Reordered v) {p : String} {lib : Library}
    (hlib : w.Gives p lib) : ∃ lib', v.Gives p lib' ∧ lib.Mirrors id lib' := by
  obtain ⟨lib', hlib', hmirrors, -⟩ := h.related.gives Draft.Namespace.likeness_reordered
    (Draft.Namespace.Matched.mirrors_reordered id) hw (h.asRead hw) hlib
  exact ⟨lib', hlib', hmirrors⟩

/-- **The order of declarations plays no part.**  Let the declarations inside each scope of
    drafts that have just been read stand in any other order.  The passes and the build of a
    file succeed on both or on neither, and then each file binds each name to the same
    entity, by itself and with all that it imports. -/
theorem Reordered.gives_same_entities {w v : Workspace} (hw : w.Fresh) (h : w.Reordered v)
    (p : String) :
    ((∃ lib, w.Gives p lib) ↔ ∃ lib', v.Gives p lib') ∧
    ∀ lib lib', w.Gives p lib → v.Gives p lib' → ∀ f q,
      (lib.find? f).bind (·.own? q) = (lib'.find? f).bind (·.own? q) ∧
        lib.lookup? f q = lib'.lookup? f q := by
  have hread := hw.asRead
  refine ⟨⟨?_, ?_⟩, fun lib lib' hlib hlib' f q => ?_⟩
  · rintro ⟨lib, hlib⟩
    obtain ⟨lib', hlib', -⟩ := h.gives hread hlib
    exact ⟨lib', hlib'⟩
  · rintro ⟨lib', hlib'⟩
    obtain ⟨lib, hlib, -⟩ := h.symm.gives (h.asRead hread) hlib'
    exact ⟨lib, hlib⟩
  · obtain ⟨lib'', hlib'', hmirrors⟩ := h.gives hread hlib
    obtain rfl := hlib''.unique hlib'
    have hboth := hmirrors.entities f q
    simp only [show Model.Entity.relabel id = id from funext Model.Entity.relabel_id, Option.map_id,
      id_eq] at hboth
    exact ⟨hboth.1.symm, hboth.2.symm⟩

end Workspace

/-! ## Declarations in reverse -/

/-- A scope with its declarations in reverse. -/
def Draft.Scope.reversed (s : Scope) : Scope :=
  { s with
    messages := s.messages.reverse
    enums := s.enums.reverse
    options := s.options.reverse
    compounds := s.compounds.reverse }

/-- A draft with the declarations of every scope in reverse. -/
def Draft.reversed (d : Draft) : Draft :=
  { d with
    top := d.top.reversed
    arena := d.arena.map fun ns => { ns with scope := ns.scope.reversed } }

/-- A workspace of reversed drafts. -/
def Workspace.reversed (w : Workspace) : Workspace :=
  { w with drafts := w.drafts.map Draft.reversed }

theorem Draft.reordered_reversed (d : Draft) : d.Reordered d.reversed := by
  have hscope : ∀ s : Scope, s.Reordered s.reversed := fun s =>
    ⟨(reverse_perm _).symm, (reverse_perm _).symm, (reverse_perm _).symm,
      (reverse_perm _).symm, rfl⟩
  refine ⟨hscope d.top, ?_, rfl⟩
  exact forall₂_map_right_iff.2 (forall₂_same.2 fun ns _ => ⟨hscope ns.scope, rfl⟩)

theorem Workspace.reordered_reversed (w : Workspace) : w.Reordered w.reversed :=
  ⟨forall₂_map_right_iff.2 (forall₂_same.2 fun d _ => d.reordered_reversed), rfl, rfl⟩

/-- A file that declares an enumeration and a message before their parents. -/
def Loading.ofSale : Loading × Option Interruption :=
  run Compilation.shop "/shop/sale.def"
    "import \"party.def\" enum Hue : Tone \x7b Red \x7d enum Tone \x7b Dim \x7d
     message Sale : Deal \x7b hue: Hue \x7d message Deal : Party \x7b \x7d"
    ⟨.empty ".def", []⟩

/-- The values of `Hue` in a library, those of its parent first. -/
def Library.hues (lib : Library) : Option (List String) :=
  (lib.enumeration? "/shop/sale.def" "sale::Hue").map fun e => e.values.map (·.name)

theorem Workspace.Reordered.gives_same_entities_sale :
    ∃ (w : Workspace) (lib lib' : Library), w.Fresh ∧
    w.Reordered w.reversed ∧
    (w.draftAt? "/shop/sale.def").map (fun d => d.top.enums.map (·.name)) = some ["Hue", "Tone"] ∧
    (w.reversed.draftAt? "/shop/sale.def").map (fun d => d.top.enums.map (·.name)) =
      some ["Tone", "Hue"] ∧
    w.Gives "/shop/sale.def" lib ∧ w.reversed.Gives "/shop/sale.def" lib' ∧
      lib.hues = some ["Dim", "Red"] ∧
    ∀ f q, (lib.find? f).bind (·.own? q) = (lib'.find? f).bind (·.own? q) ∧
      lib.lookup? f q = lib'.lookup? f q := by
  have hvalues : Loading.ofSale.2.isNone = true ∧
      (Loading.ofSale.1.workspace.draftAt? "/shop/sale.def").map
      (fun d => d.top.enums.map (·.name)) =
        some ["Hue", "Tone"] ∧
      (Loading.ofSale.1.workspace.reversed.draftAt? "/shop/sale.def").map
      (fun d => d.top.enums.map (·.name)) =
        some ["Tone", "Hue"] ∧
      Loading.ofSale.1.workspace.refineAll.2.toOption.isSome = true ∧
      (Loading.ofSale.1.workspace.refineAll.1.draftAt? "/shop/sale.def").map (fun d =>
        ((Build.run Loading.ofSale.1.workspace.refineAll.1 .empty d).1.hues,
          (Build.run Loading.ofSale.1.workspace.refineAll.1 .empty d).2.2.toOption)) =
        some (some ["Dim", "Red"], some ()) := by decide +kernel
  rcases hload : Loading.ofSale with ⟨l, stop⟩
  rw [hload] at hvalues
  obtain ⟨hend, hforth, hback, hrefine, hdraft⟩ := hvalues
  obtain rfl : stop = none := Option.isNone_iff_eq_none.1 hend
  have hfresh : l.workspace.Fresh := fresh_run hload
  rcases hall : l.workspace.refineAll with ⟨w, result⟩
  rw [hall] at hrefine hdraft
  obtain ⟨ids, rfl⟩ : ∃ ids, result = .ok ids := by
    cases result with
    | error fault => cases hrefine
    | ok ids => exact ⟨ids, rfl⟩
  obtain ⟨d, hd, hboth⟩ := Option.map_eq_some_iff.1 hdraft
  rcases hrun : Build.run w .empty d with ⟨lib, events, outcome⟩
  simp only [hrun, Prod.mk.injEq] at hboth
  obtain rfl : outcome = .ok () := by
    cases outcome with
    | error r => cases hboth.2
    | ok _ => rfl
  have hlib : l.workspace.Gives "/shop/sale.def" lib := ⟨w, ids, d, events, hall, hd, hrun⟩
  have hreversed := l.workspace.reordered_reversed
  obtain ⟨hiff, hsame⟩ := gives_same_entities hfresh hreversed "/shop/sale.def"
  obtain ⟨lib', hlib'⟩ := hiff.1 ⟨lib, hlib⟩
  exact ⟨l.workspace, lib, lib', hfresh, hreversed, hforth, hback, hlib, hlib', hboth.1,
    hsame lib lib' hlib hlib'⟩

end MessageSchema
