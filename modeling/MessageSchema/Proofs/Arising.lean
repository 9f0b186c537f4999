/-
  Drafts that arise from texts.

  `d.Arises` says that `d` has been read from a text, and that any passes have been
  run on it since, in any order and in any workspaces, even such as broke down.

  * `orderly_read`, `orderly_run`: reading makes orderly drafts, and passes keep them
    orderly: the walk meets every namespace exactly once, and everything has a word
    as its name;
  * `Arises.orderly`: hence every draft that arises is orderly.
-/
import MessageSchema.Proofs.Refinement
import MessageSchema.Workspace

namespace MessageSchema.Draft

open List

/-- A draft that has been read from a text, after any passes. -/
inductive Arises : Draft → Prop
  | read {file text : String} {d : Draft} : Draft.read file text = .ok d → Arises d
  | run {d : Draft} {p : Pass} (w : Workspace) : Arises d → p ∈ Pass.multi → Arises (p.run w d).1

/-! ## Names that are words -/

/-- Messages with words as their names and as those of their fields. -/
def MessagesWorded (ms : List Message) : Prop :=
  ∀ m ∈ ms, IsWord m.name ∧ ∀ f ∈ m.fields, IsWord f.name

/-- A scope in which everything has a word as its name. -/
structure Scope.Worded (s : Scope) : Prop where
  message : MessagesWorded s.messages
  enumeration : ∀ e ∈ s.enums, IsWord e.name
  options : ∀ e ∈ s.options, IsWord e.name
  compound : ∀ c ∈ s.compounds, IsWord c.name

variable {s : Scope} {d e : Draft}

theorem Scope.Worded.isWord (h : s.Worded) {x : Model.Declaration}
    (hx : x ∈ Model.declarationsOf s) : IsWord x.name := by
  rcases mem_declarationsOf.1 hx with ⟨m, hm, rfl⟩ | ⟨e, he, rfl⟩ | ⟨e, he, rfl⟩ | ⟨c, hc, rfl⟩
  · exact (h.message m hm).1
  · exact h.enumeration e he
  · exact h.options e he
  · exact h.compound c hc

theorem Scope.AsRead.worded (h : s.AsRead) : s.Worded where
  message m hm := ⟨(h.message m hm).name, (h.message m hm).fieldName⟩
  enumeration e he := (h.enumeration e he).name
  options e he := (h.options e he).name
  compound := h.compoundName

theorem Scope.Worded.moveTo (h : s.Worded) (home : String) : (s.moveTo home).Worded :=
  ⟨forall_mem_map.2 h.message, forall_mem_map.2 h.enumeration, forall_mem_map.2 h.options,
    forall_mem_map.2 h.compound⟩

theorem Scope.Worded.mapNames (h : s.Worded) (f : TypeName → TypeName) : (s.mapNames f).Worded :=
  ⟨forall_mem_map.2 fun m hm => ⟨(h.message m hm).1, forall_mem_map.2 (h.message m hm).2⟩,
    forall_mem_map.2 h.enumeration, h.options, h.compound⟩

/-! ### Promotion, even if it breaks off -/

theorem isWord_promoteFields (home : Option String) {message : String} (hm : IsWord message)
    {fs : List Field} (hfs : ∀ f ∈ fs, IsWord f.name) :
    (∀ f ∈ (promoteFields home message fs).1, IsWord f.name) ∧
      ∀ e ∈ (promoteFields home message fs).2.1, IsWord e.name := by
  induction fs with
  | nil => simp [promoteFields]
  | cons f fs ih =>
    obtain ⟨hfields, hnew⟩ := ih fun g hg => hfs g (mem_cons_of_mem _ hg)
    have hf := hfs f mem_cons_self
    rw [promoteFields]
    split
    · exact ⟨hfs, by simp⟩
    · next f' new heq =>
      obtain ⟨-, rfl, rfl⟩ := Field.promote_eq_iff.1 heq
      refine ⟨forall_mem_cons.2 ⟨hf, hfields⟩, fun e he => ?_⟩
      · rcases mem_append.1 he with he | he
        · have he := Field.promoted?_eq_some_iff.1 (Option.mem_toList.1 he)
          rw [he.name_eq.1]
          exact hm.ofInline hf
        · exact hnew e he

theorem isWord_promoteMessages (home : Option String) {ms : List Message}
    (hms : MessagesWorded ms) :
    MessagesWorded (promoteMessages home ms).1 ∧ ∀ e ∈ (promoteMessages home ms).2.1,
      IsWord e.name := by
  induction ms with
  | nil => simp [promoteMessages, MessagesWorded]
  | cons m ms ih =>
    have hrest : MessagesWorded ms := fun x hx => hms x (mem_cons_of_mem _ hx)
    obtain ⟨hname, hfs⟩ := hms m mem_cons_self
    obtain ⟨hfields, hnew⟩ := isWord_promoteFields home hname hfs
    obtain ⟨hmessages, hmore⟩ := ih hrest
    rw [promoteMessages]
    simp only
    split
    · exact ⟨forall_mem_cons.2 ⟨⟨hname, hfields⟩, hrest⟩, hnew⟩
    · exact ⟨forall_mem_cons.2 ⟨⟨hname, hfields⟩, hmessages⟩, forall_mem_append.2 ⟨hnew, hmore⟩⟩

theorem Scope.Worded.promote (h : s.Worded) (home : Option String) : (s.promote home).1.Worded := by
  obtain ⟨hmessages, hnew⟩ := isWord_promoteMessages home h.message
  exact ⟨hmessages, forall_mem_append.2 ⟨h.enumeration, fun e he => hnew e (mem_filter.1 he).1⟩,
    forall_mem_append.2 ⟨h.options, fun e he => hnew e (mem_filter.1 he).1⟩, h.compound⟩

theorem worded_promoteAt {is : List Nat} {arena : List Namespace}
    (h : ∀ ns ∈ arena, ns.scope.Worded) :
    outline (promoteAt is arena).1 = outline arena ∧ ∀ ns ∈ (promoteAt is arena).1,
      ns.scope.Worded := by
  induction is generalizing arena with
  | nil => exact ⟨rfl, h⟩
  | cons i is ih =>
    rw [promoteAt]
    split
    · exact ih h
    · next ns hns =>
      have hset : ∀ x ∈ arena.set i { ns with scope := (ns.scope.promote ns.qualified).1 },
          x.scope.Worded := by
        intro x hx
        rcases mem_or_eq_of_mem_set hx with hx | rfl
        · exact h x hx
        · exact (h ns (mem_of_getElem? hns)).promote _
      have houtline := outline_set hns (Scope.promote_children ns.qualified ns.scope)
      simp only
      split
      · exact ⟨houtline, hset⟩
      · obtain ⟨ho, hall⟩ := ih hset
        exact ⟨ho.trans houtline, hall⟩

/-! ## Orderly drafts -/

/-- A draft whose namespaces are all met once, with words as names.  It is wrapped, or
    laid out as its text is, so that wrapping keeps it orderly. -/
structure Orderly (d : Draft) : Prop where
  covered : d.Covered
  shape : d.IsLaid ∨ d.isWrapped = true
  top : d.top.Worded
  arena : ∀ ns ∈ d.arena, ns.scope.Worded

theorem rootIndex?_congr (htop : e.top.children = d.top.children) (hstem : e.stem = d.stem)
    (h : outline e.arena = outline d.arena) : e.rootIndex? = d.rootIndex? := by
  unfold rootIndex?
  rw [htop]
  split
  · next i _ =>
    have hi := outline_getElem? h i
    rcases he : e.arena[i]? with _ | x <;> rcases hd :
      d.arena[i]? with _ | y <;> simp [he, hd] at hi
    · rfl
    · simp only [hi.1, hstem]
  · rfl

/-- Changes that leave the namespaces where they are. -/
theorem Orderly.congr (h : d.Orderly) (hchildren : e.top.children = d.top.children)
    (hstem : e.stem = d.stem) (houtline : outline e.arena = outline d.arena)
    (hnothing : d.top.declaresNothing = true → e.top.declaresNothing = true) (htop : e.top.Worded)
    (harena : ∀ ns ∈ e.arena, ns.scope.Worded) : e.Orderly := by
  refine ⟨h.covered.congr hchildren.symm houtline.symm,
    h.shape.imp (fun hlaid => ?_) fun hwrapped => ?_, htop, harena⟩
  · have hmap := congrArg (List.map Prod.snd) houtline
    rw [outline, outline, map_map, map_map] at hmap
    rw [IsLaid, hchildren]
    exact hmap ▸ hlaid
  · obtain ⟨hdeclares, hroot⟩ := Bool.and_eq_true_iff.1 hwrapped
    exact Bool.and_eq_true_iff.2 ⟨hnothing hdeclares,
      rootIndex?_congr hchildren hstem houtline ▸ hroot⟩

theorem orderly_read {file text : String} (h : Draft.read file text = .ok d) : d.Orderly := by
  obtain ⟨hraw, -⟩ := read_asRead h
  exact ⟨hraw.isLaid.covered, .inl hraw.isLaid, hraw.top.worded,
    fun ns hns => (hraw.arena ns hns).worded⟩

section
variable {d : Draft} (h : d.Orderly)
include h

theorem Orderly.wrap : d.wrap.Orderly := by
  by_cases hwrapped : d.isWrapped = true
  · rwa [Draft.wrap, if_pos hwrapped]
  · have hlaid := h.shape.resolve_right hwrapped
    refine ⟨hlaid.covered_wrap, .inr ?_, ?_, ?_⟩
    · rw [Draft.wrap, if_neg hwrapped]
      simp [isWrapped, rootIndex?, Scope.declaresNothing, length_adopt]
    · rw [Draft.wrap, if_neg hwrapped]
      exact ⟨by simp [MessagesWorded], by simp, by simp, by simp⟩
    · intro ns hns
      rcases mem_arena_wrap hns with ⟨x, hx, -, hscope⟩ | ⟨-, hscope⟩
      · exact hscope ▸ h.arena x hx
      · exact hscope ▸ h.top.moveTo d.stem

theorem Orderly.attach (find : Import → Option DraftId) : (d.attach find).1.Orderly :=
  h.congr rfl rfl rfl id h.top h.arena

theorem Orderly.useColons : d.useColons.Orderly := by
  refine h.congr rfl rfl (outline_useColons d) (fun hnothing => ?_) (h.top.mapNames _)
    fun ns hns => ?_
  · simpa [Scope.declaresNothing, Draft.useColons, Scope.mapNames] using hnothing
  · obtain ⟨ns, hns', rfl⟩ := mem_map.1 hns
    exact (h.arena ns hns').mapNames _

theorem Orderly.resolve {imports : List (String × Draft)} {e : Draft}
    (he : d.resolve imports = .ok e) : e.Orderly := by
  obtain ⟨-, rfl⟩ := resolve_eq he
  refine h.congr rfl rfl (outline_resolve he) id h.top ?_
  refine foldlRecOn (motive := fun arena : List Namespace => ∀ ns ∈ arena, ns.scope.Worded) _ _ ?_
    fun arena harena v _ => forall_mem_modify (fun ns hns => hns.mapNames _) harena _
  refine foldlRecOn (motive := fun arena : List Namespace => ∀ ns ∈ arena, ns.scope.Worded)
    _ _ h.arena ?_
  intro arena harena v _
  refine forall_mem_modify ?_ harena _
  exact fun ns hns => hns

theorem Orderly.promote : d.promote.1.Orderly := by
  have hnothing : d.top.declaresNothing = true → (d.top.promote none).1.declaresNothing = true := by
    intro hnothing
    rw [Scope.promote_of_declaresNothing hnothing]
    exact hnothing
  rw [Draft.promote]
  simp only
  split
  · exact h.congr rfl rfl rfl hnothing (h.top.promote none) h.arena
  · obtain ⟨houtline, harena⟩ := @worded_promoteAt (d.walk.map (·.site.index)) d.arena h.arena
    exact h.congr rfl rfl houtline hnothing (h.top.promote none) harena

/-- **Passes keep drafts orderly**, however they end. -/
theorem orderly_run {p : Pass} (hp : p ∈ Pass.multi) (w : Workspace) : (p.run w d).1.Orderly := by
  simp only [Pass.multi, mem_cons, not_mem_nil, or_false] at hp
  rcases hp with rfl | rfl | rfl | rfl | rfl
  · exact h.wrap
  · exact h.attach _
  · exact h.useColons
  · simp only [Pass.resolve]
    split
    · next he => exact h.resolve he
    · exact h
  · exact h.promote

end

theorem Arises.orderly {d : Draft} (h : d.Arises) : d.Orderly := by
  induction h with
  | read h => exact orderly_read h
  | run w _ hp ih => exact orderly_run ih hp w

end MessageSchema.Draft
