/-
  The order of files by their imports.
-/
import MessageSchema.Proofs.Reading
import MessageSchema.Proofs.Tables
import MessageSchema.Workspace.Order

namespace MessageSchema.Workspace

open List

/-- Every registered path stands for the draft of its file. -/
def Tidy (w : Workspace) : Prop :=
  ∀ {p id}, w.registry.find? p = some id → ∃ d, w.draft? id = some d ∧ d.file = p

variable {w : Workspace} {stack : List String}

theorem Tidy.path_unique (h : w.Tidy) {p q : String} {id : DraftId}
    (hp : w.registry.find? p = some id) (hq : w.registry.find? q = some id) : p = q := by
  obtain ⟨d, hd, rfl⟩ := h hp
  obtain ⟨e, he, rfl⟩ := h hq
  rw [hd] at he
  cases he
  rfl

/-- Drafts in an order in which each comes after those that it imports. -/
structure Ordered (w : Workspace) (ids : List DraftId) : Prop where
  nodup : ids.Nodup
  registered : ∀ id ∈ ids, ∃ p, w.registry.find? p = some id
  before : ∀ {pre id post}, ids = pre ++ id :: post → ∀ {d}, w.draft? id = some d →
    ∀ i ∈ d.imports, ∀ j, w.imported? d i = some j → j ∈ pre

theorem Ordered.nil (w : Workspace) : w.Ordered [] := ⟨nodup_nil, by simp, by simp⟩

theorem Ordered.concat {ids : List DraftId} (h : w.Ordered ids) {p : String} {id : DraftId}
    (hp : w.registry.find? p = some id) (hnew : id ∉ ids) {d : Draft} (hd : w.draft? id = some d)
    (himports : ∀ i ∈ d.imports, ∀ j, w.imported? d i = some j → j ∈ ids) :
    w.Ordered (ids ++ [id]) := by
  refine ⟨?_, ?_, ?_⟩
  · rw [← concat_eq_append]
    exact h.nodup.concat hnew
  · intro x hx
    rcases mem_append.1 hx with hx | hx
    · exact h.registered x hx
    · rw [mem_singleton.1 hx]; exact ⟨p, hp⟩
  · intro pre x post heq e he i hi j hj
    rcases eq_nil_or_concat post with rfl | ⟨post', y, rfl⟩
    · obtain ⟨rfl, hid⟩ := append_inj' heq rfl
      cases hid
      rw [hd] at he
      cases he
      exact himports i hi j hj
    · rw [concat_eq_append, ← cons_append, ← append_assoc] at heq
      exact h.before (append_inj' heq rfl).1 he i hi j hj

/-- A state of the sort: the drafts visited are in order, and their paths are done. -/
structure Sorted.Good (w : Workspace) (s : Sorted) : Prop where
  ordered : w.Ordered s.ids
  mem_ids : ∀ {p id}, w.registry.find? p = some id → (p ∈ s.done ↔ id ∈ s.ids)

/-- What a visit does: nothing is lost, and the paths that it waits for are not done. -/
structure Sorted.Grows (stack : List String) (s s' : Sorted) : Prop where
  keeps : s.done ⊆ s'.done
  fresh : ∀ p ∈ s'.done, p ∈ s.done ∨ p ∉ stack

theorem Sorted.Grows.refl (stack : List String) (s : Sorted) : s.Grows stack s :=
  ⟨fun _ h => h, fun _ h => .inl h⟩

theorem Sorted.Grows.trans {s s' s'' : Sorted} (h : s.Grows stack s')
    (h' : s'.Grows stack s'') : s.Grows stack s'' := by
  refine ⟨fun p hp => h'.keeps (h.keeps hp), fun p hp => ?_⟩
  rcases h'.fresh p hp with hp | hp
  · exact h.fresh p hp
  · exact .inr hp

theorem good_sortImports {visit : String → DraftId → Sorted → Except Fault Sorted}
    (hvisit : ∀ {path id s s'}, visit path id s = .ok s' → s.Good w →
      w.registry.find? path = some id → path ∉ stack → s'.Good w ∧ s.Grows stack s' ∧
      path ∈ s'.done)
    {d : Draft} {is : List Draft.Import} {s s' : Sorted}
    (h : sortImports w visit stack d is s = .ok s') (hs : s.Good w) : s'.Good w ∧ s.Grows stack s' ∧
      ∀ i ∈ is, ∀ j, w.imported? d i = some j → j ∈ s'.ids := by
  induction is generalizing s with
  | nil =>
    rw [sortImports] at h
    cases h
    exact ⟨hs, .refl _ _, by simp⟩
  | cons i is ih =>
    rw [sortImports] at h
    split at h
    · next hnone =>
      obtain ⟨hgood, hgrows, hall⟩ := ih h hs
      refine ⟨hgood, hgrows, fun k hk j hj => ?_⟩
      rcases mem_cons.1 hk with rfl | hk
      · rw [imported?, hnone] at hj
        cases hj
      · exact hall k hk j hj
    · next id hid =>
      split at h
      · cases h
      · next hstack =>
        obtain ⟨s₁, hone, h⟩ := bind_eq_ok h
        obtain ⟨hgood₁, hgrows₁, hdone₁⟩ := hvisit hone hs hid (by simpa using hstack)
        obtain ⟨hgood, hgrows, hall⟩ := ih h hgood₁
        refine ⟨hgood, hgrows₁.trans hgrows, fun k hk j hj => ?_⟩
        rcases mem_cons.1 hk with rfl | hk
        · exact (hgood.mem_ids hj).1 (hgrows.keeps hdone₁)
        · exact hall k hk j hj

section
variable {w : Workspace} (hw : w.Tidy)
include hw

variable {s s' : Sorted} {ids : List DraftId}

theorem good_sortFrom {n : Nat} {stack : List String} {path : String} {id : DraftId}
    (h : sortFrom w n stack path id s = .ok s') (hs : s.Good w)
    (hpath : w.registry.find? path = some id) (hnew : path ∉ stack) (hnodup : stack.Nodup)
    (hsub : stack ⊆ w.registry.keys) (hn : w.registry.size < n + stack.length) :
    s'.Good w ∧ s.Grows stack s' ∧ path ∈ s'.done := by
  induction n generalizing stack path id s s' with
  | zero =>
    have := (hnodup.subperm hsub).length_le
    rw [Table.length_keys] at this
    omega
  | succ n ih =>
    rw [sortFrom] at h
    split at h
    · next hdone =>
      cases h
      exact ⟨hs, .refl _ _, by simpa using hdone⟩
    · next hdone =>
      have hdone : path ∉ s.done := by simpa using hdone
      obtain ⟨d, hd, -⟩ := hw hpath
      rw [hd] at h
      obtain ⟨s₁, hall, h⟩ := bind_eq_ok h
      cases h
      have hnodup' : (stack ++ [path]).Nodup := by
        rw [← concat_eq_append]; exact hnodup.concat hnew
      have hsub' : stack ++ [path] ⊆ w.registry.keys := by
        intro p hp
        rcases mem_append.1 hp with hp | hp
        · exact hsub hp
        · rw [mem_singleton.1 hp]; exact Table.mem_keys_of_find? hpath
      have hn' : w.registry.size < n + (stack ++ [path]).length := by
        rw [length_append, length_singleton]; omega
      obtain ⟨hgood, hgrows, himports⟩ := good_sortImports
        (fun h hs hp hnew => ih h hs hp hnew hnodup' hsub' hn') hall hs
      have hpath₁ : path ∉ s₁.done := by
        intro hmem
        rcases hgrows.fresh path hmem with h | h
        · exact hdone h
        · exact h (by simp)
      have hid₁ : id ∉ s₁.ids := fun hmem => hpath₁ ((hgood.mem_ids hpath).2 hmem)
      refine ⟨⟨hgood.ordered.concat hpath hid₁ hd himports, fun {p j} hp => ?_⟩, ⟨?_, ?_⟩, by simp⟩
      · simp only [mem_append, mem_singleton, hgood.mem_ids hp]
        refine or_congr_right ⟨?_, ?_⟩
        · rintro rfl
          rw [hpath] at hp
          exact (Option.some.inj hp).symm
        · rintro rfl
          exact hw.path_unique hp hpath
      · intro p hp
        exact mem_append_left _ (hgrows.keeps hp)
      · intro p hp
        rcases mem_append.1 hp with hp | hp
        · exact (hgrows.fresh p hp).imp_right fun h hm => h (mem_append_left _ hm)
        · rw [mem_singleton.1 hp]; exact .inr hnew

theorem good_sortAll {es : List (String × DraftId)}
    (hes : ∀ e ∈ es, w.registry.find? e.1 = some e.2) (h : w.sortAll es s = .ok s')
    (hs : s.Good w) : s'.Good w ∧ s.done ⊆ s'.done ∧ ∀ e ∈ es, e.1 ∈ s'.done := by
  induction es generalizing s with
  | nil =>
    rw [sortAll] at h
    cases h
    exact ⟨hs, fun _ hp => hp, by simp⟩
  | cons e es ih =>
    obtain ⟨path, id⟩ := e
    rw [sortAll] at h
    obtain ⟨s₁, hone, h⟩ := bind_eq_ok h
    have hpath := hes (path, id) mem_cons_self
    obtain ⟨hgood₁, hgrows₁, hdone₁⟩ := good_sortFrom hw hone hs hpath (by simp) nodup_nil (by simp)
      (by simp)
    obtain ⟨hgood, hkeeps, hall⟩ := ih (fun x hx => hes x (mem_cons_of_mem _ hx)) h hgood₁
    exact ⟨hgood, fun p hp => hkeeps (hgrows₁.keeps hp), forall_mem_cons.2 ⟨hkeeps hdone₁, hall⟩⟩

/-- **Every registered draft comes once, after all that it imports.** -/
theorem ordered_order (h : w.order = .ok ids) :
    w.Ordered ids ∧ ∀ {p id}, w.registry.find? p = some id → id ∈ ids := by
  obtain ⟨s, hall, h⟩ := bind_eq_ok h
  cases h
  have hempty : Sorted.Good w ⟨[], []⟩ := ⟨.nil w, by simp⟩
  obtain ⟨hgood, -, hdone⟩ :=
    good_sortAll hw (fun e he => (Table.mem_entries_iff _ _ _).1 he) hall hempty
  refine ⟨hgood.ordered, fun {p id} hp => ?_⟩
  exact (hgood.mem_ids hp).1 (hdone (p, id) ((Table.mem_entries_iff _ _ _).2 hp))

omit hw in
/-- The place of a file in an order of the drafts. -/
def rank (w : Workspace) (ids : List DraftId) (p : String) : Nat :=
  ((w.registry.find? p).map ids.idxOf).getD 0

omit hw in
theorem rank_eq {p : String} {id : DraftId} (hp : w.registry.find? p = some id) :
    w.rank ids p = ids.idxOf id := by
  rw [rank, hp, Option.map_some, Option.getD_some]

/-- **An order ranks the files**, each above all that it imports, and there are no
    more ranks than drafts. -/
theorem exists_rank (h : w.order = .ok ids) :
    ∃ rank : String → Nat, (∀ {p id}, w.registry.find? p = some id → rank p < w.drafts.length) ∧
      ∀ {p id d}, w.registry.find? p = some id → w.draft? id = some d → ∀ i ∈ d.imports, ∀ j,
        w.imported? d i = some j → rank (w.target d i) < rank p := by
  obtain ⟨hordered, hall⟩ := ordered_order hw h
  have hlength : ids.length ≤ w.drafts.length := by
    have hsub : ids ⊆ List.range w.drafts.length := by
      intro id hid
      obtain ⟨p, hp⟩ := hordered.registered id hid
      obtain ⟨d, hd, -⟩ := hw hp
      exact mem_range.2 (List.getElem?_eq_some_iff.1 hd).1
    simpa using (hordered.nodup.subperm hsub).length_le
  refine ⟨w.rank ids, fun {p id} hp => ?_, fun {p id d} hp hd i hi j hj => ?_⟩
  · rw [rank_eq hp]
    exact Nat.lt_of_lt_of_le (idxOf_lt_length_iff.2 (hall hp)) hlength
  · obtain ⟨pre, post, rfl⟩ := append_of_mem (hall hp)
    have hpre := hordered.before rfl hd i hi j hj
    have hid : id ∉ pre := by
      have hnd := hordered.nodup
      rw [nodup_append] at hnd
      exact fun hmem => hnd.2.2 id hmem id mem_cons_self rfl
    rw [rank_eq hp, rank_eq hj, idxOf_append_of_mem hpre, idxOf_append_of_notMem hid,
      idxOf_cons_self]
    exact idxOf_lt_length_iff.2 hpre

end

/-! ## Imports that descend -/

section
variable {w : Workspace} {rank : String → Nat}
  (hrank : ∀ {p id d}, w.registry.find? p = some id → w.draft? id = some d → ∀ i ∈ d.imports, ∀ j,
    w.imported? d i = some j → rank (w.target d i) < rank p)
include hrank

omit hrank in
theorem sortImports_eq_ok {visit : String → DraftId → Sorted → Except Fault Sorted}
    {stack : List String}
    (hvisit : ∀ {path id} (s : Sorted), w.registry.find? path = some id →
      (∀ q ∈ stack, rank path < rank q) → ∃ s', visit path id s = .ok s')
    {d : Draft} {is : List Draft.Import}
    (his : ∀ i ∈ is, ∀ j, w.imported? d i = some j → ∀ q ∈ stack, rank (w.target d i) < rank q)
    (s : Sorted) : ∃ s', sortImports w visit stack d is s = .ok s' := by
  induction is generalizing s with
  | nil => exact ⟨s, rfl⟩
  | cons i is ih =>
    have hrest := fun j hj => his j (mem_cons_of_mem i hj)
    rw [sortImports]
    split
    · exact ih hrest s
    · next j hj =>
      have habove := his i mem_cons_self j hj
      have hnot : stack.contains (w.target d i) = false := by
        simp only [contains_eq_mem, decide_eq_false_iff_not]
        exact fun hmem => absurd (habove _ hmem) (Nat.lt_irrefl _)
      obtain ⟨s₁, hs₁⟩ := hvisit s hj habove
      simp only [hnot, Bool.false_eq_true, if_false, hs₁]
      exact ih hrest s₁

theorem sortFrom_eq_ok (n : Nat) (stack : List String) {path : String} {id : DraftId} (s : Sorted)
    (hpath : w.registry.find? path = some id) (hstack : ∀ q ∈ stack, rank path < rank q) :
    ∃ s', sortFrom w n stack path id s = .ok s' := by
  induction n generalizing stack path id s with
  | zero => exact ⟨s, rfl⟩
  | succ n ih =>
    rw [sortFrom]
    split
    · exact ⟨s, rfl⟩
    · split
      · exact ⟨s, rfl⟩
      · next d hd =>
        -- whatever waits has a higher rank than the import
        have habove : ∀ i ∈ d.imports, ∀ j, w.imported? d i = some j →
            ∀ q ∈ stack ++ [path], rank (w.target d i) < rank q := by
          intro i hi j hj q hq
          have hlt := hrank hpath hd i hi j hj
          rcases mem_append.1 hq with hq | hq
          · exact hlt.trans (hstack q hq)
          · rwa [mem_singleton.1 hq]
        obtain ⟨s', hs'⟩ := sortImports_eq_ok (fun s hp hq => ih (stack ++ [path]) s hp hq) habove s
        exact ⟨⟨s'.done ++ [path], s'.ids ++ [id]⟩, by simp only [hs']; rfl⟩

theorem sortAll_eq_ok {es : List (String × DraftId)}
    (hes : ∀ e ∈ es, w.registry.find? e.1 = some e.2) (s : Sorted) :
    ∃ s', w.sortAll es s = .ok s' := by
  induction es generalizing s with
  | nil => exact ⟨s, rfl⟩
  | cons e es ih =>
    obtain ⟨path, id⟩ := e
    obtain ⟨s₁, hs₁⟩ := sortFrom_eq_ok hrank (w.registry.size + 1) [] s
      (hes _ mem_cons_self) (by simp)
    obtain ⟨s', hs'⟩ := ih (fun x hx => hes x (mem_cons_of_mem _ hx)) s₁
    exact ⟨s', by rw [sortAll, hs₁]; exact hs'⟩

/-- **There is an order if the imports descend.** -/
theorem order_eq_ok : ∃ ids, w.order = .ok ids := by
  obtain ⟨s, hs⟩ := sortAll_eq_ok hrank (fun e he => (Table.mem_entries_iff _ _ _).1 he) ⟨[], []⟩
  exact ⟨s.ids, by rw [order, hs]; rfl⟩

end

/-! ## What the order depends on -/

/-- The drafts of two workspaces are of the same files and import the same. -/
structure SameImports (w v : Workspace) : Prop where
  registry : v.registry = w.registry
  extension : v.extension = w.extension
  draft : ∀ id,
    Option.Rel (fun d e => e.file = d.file ∧ d.imports.map (·.path) = e.imports.map (·.path))
    (w.draft? id) (v.draft? id)

namespace SameImports

variable {w v : Workspace} (h : w.SameImports v)
include h

variable {stack : List String} {s s' : Sorted}

theorem target {d e : Draft} (hfile : e.file = d.file) {i j : Draft.Import}
    (hpath : i.path = j.path) : v.target e j = w.target d i := by
  rw [Workspace.target, Workspace.target, h.extension, hfile, hpath]

theorem sortImports {visit visit' : String → DraftId → Sorted → Except Fault Sorted}
    (hvisit : ∀ {p id s s'}, visit p id s = .ok s' → visit' p id s = .ok s') {d e : Draft}
    (hfile : e.file = d.file) {is js : List Draft.Import}
    (hpaths : Forall₂ (fun i j => i.path = j.path) is js)
    (hs : w.sortImports visit stack d is s = .ok s') :
    v.sortImports visit' stack e js s = .ok s' := by
  induction hpaths generalizing s with
  | nil => exact hs
  | cons hpath _ ih =>
    rw [Workspace.sortImports] at hs ⊢
    rw [h.registry, h.target hfile hpath]
    split at hs
    · exact ih hs
    · split at hs
      · cases hs
      · next hstack =>
        obtain ⟨s₁, hs₁, hs⟩ := bind_eq_ok hs
        simp only [if_neg hstack, hvisit hs₁]
        exact ih hs

theorem sortFrom {depth : Nat} {path : String} {id : DraftId}
    (hs : w.sortFrom depth stack path id s = .ok s') :
    v.sortFrom depth stack path id s = .ok s' := by
  induction depth generalizing stack path id s s' with
  | zero => exact hs
  | succ depth ih =>
    rw [Workspace.sortFrom] at hs ⊢
    split at hs
    · next hdone => rwa [if_pos hdone]
    · next hdone =>
      rw [if_neg hdone]
      obtain ⟨hd, he⟩ | ⟨d, e, hd, he, hfile, himports⟩ := rel_cases (h.draft id)
      · rw [hd] at hs
        rw [he]
        exact hs
      · rw [hd] at hs
        rw [he]
        obtain ⟨s₁, hs₁, hs⟩ := bind_eq_ok hs
        simp only [h.sortImports ih hfile (forall₂_of_map_eq himports) hs₁]
        exact hs

/-- **The order depends on what drafts import.** -/
theorem order {ids : List DraftId} (hids : w.order = .ok ids) : v.order = .ok ids := by
  have hall : ∀ {es s s'}, w.sortAll es s = .ok s' → v.sortAll es s = .ok s' := by
    intro es
    induction es with
    | nil => exact fun hs => hs
    | cons e es ih =>
      intro s s' hs
      obtain ⟨s₁, hs₁, hs⟩ := bind_eq_ok hs
      rw [sortAll, h.registry, h.sortFrom hs₁]
      exact ih hs
  obtain ⟨s, hs, hids⟩ := bind_eq_ok hids
  rw [Workspace.order, h.registry, hall hs]
  exact hids

end SameImports

end MessageSchema.Workspace
