/-
  Files that import each other.

  `w.Imports p q` says that the draft of the registered path `p` has an import
  that leads to the registered path `q`.

  * `order_eq_error_iff`: there is no order just if some path imports itself,
    directly or through others.
-/
import MessageSchema.Proofs.Loops
import MessageSchema.Proofs.Ordering
import MessageSchema.Proofs.PlacedPasses

namespace MessageSchema

open List Table

theorem bind_eq_error {ε α β : Type} {x : Except ε α} {f : α → Except ε β} {e : ε}
    (h : (x >>= f) = .error e) : x = .error e ∨ ∃ a, x = .ok a ∧ f a = .error e := by
  cases x with
  | error e' =>
    cases h
    exact .inl rfl
  | ok a => exact .inr ⟨a, rfl, h⟩

namespace Workspace

variable {w : Workspace} {stack : List String}

/-- A draft that stands for its file. -/
def Registers (w : Workspace) (d : Draft) : Prop :=
  ∃ id, w.registry.find? d.file = some id ∧ w.draft? id = some d

/-- One registered path imports another. -/
def Imports (w : Workspace) (p q : String) : Prop :=
  ∃ d, w.Registers d ∧ d.file = p ∧ w.registry.contains q = true ∧ ∃ i ∈ d.imports, w.target d i = q

/-- A fault that shows files that import each other in a ring, at the import that closes it. -/
def ShowsRing (w : Workspace) (fault : Fault) : Prop :=
  ∃ files d i, Loop w.Imports files ∧ w.Registers d ∧ i ∈ d.imports ∧
    [d.file, w.target d i] <:+ files ∧
    fault = { cause := .importCycle files, file := d.file, line := i.line }

/-! ## Rings that are met -/

/-- The paths that wait for each other during the sort, the innermost last. -/
structure Waits (w : Workspace) (stack : List String) : Prop where
  nodup : stack.Nodup
  chain : stack.IsChain w.Imports

theorem Waits.nil (w : Workspace) : w.Waits [] := ⟨nodup_nil, isChain_nil⟩

theorem Waits.concat (h : w.Waits stack) {p : String} (hnew : p ∉ stack)
    (hp : ∀ q ∈ stack.getLast?, w.Imports q p) : w.Waits (stack ++ [p]) where
  nodup := nodup_concat h.nodup hnew
  chain := isChain_concat h.chain hp

theorem Waits.loop (h : w.Waits stack) {p q : String} (hlast : stack.getLast? = some p)
    (himports : w.Imports p q) (hq : q ∈ stack) :
    Loop w.Imports (stack.dropWhile (· ≠ q) ++ [q]) ∧
      [p, q] <:+ stack.dropWhile (· ≠ q) ++ [q] := by
  have hchain : (stack ++ [q]).IsChain w.Imports :=
    isChain_concat h.chain (by simpa [hlast] using himports)
  refine ⟨.of_chain h.nodup hchain hq, ?_⟩
  obtain ⟨before, after, rfl, hbefore⟩ := eq_append_cons_of_mem hq
  rw [getLast?_append_of_ne_nil _ (cons_ne_nil q after)] at hlast
  rw [dropWhile_ne_append hbefore]
  obtain ⟨init, hinit⟩ := getLast?_eq_some_iff.1 hlast
  exact ⟨init, by rw [hinit]; simp⟩

theorem showsRing_sortImports {visit : String → DraftId → Sorted → Except Fault Sorted} {d : Draft}
    (hd : w.Registers d) (hstack : w.Waits stack) (hlast : stack.getLast? = some d.file)
    (hvisit : ∀ {path id s fault}, visit path id s = .error fault →
      w.registry.find? path = some id → path ∉ stack → w.Imports d.file path → w.ShowsRing fault)
    {is : List Draft.Import} (his : is ⊆ d.imports) {s : Sorted} {fault : Fault}
    (h : sortImports w visit stack d is s = .error fault) : w.ShowsRing fault := by
  induction is generalizing s with
  | nil => cases h
  | cons i is ih =>
    have hi : i ∈ d.imports := his mem_cons_self
    have hrest : is ⊆ d.imports := fun j hj => his (mem_cons_of_mem i hj)
    rw [sortImports] at h
    split at h
    · exact ih hrest h
    · next id hid =>
      have himports : w.Imports d.file (w.target d i) :=
        ⟨d, hd, rfl, contains_of_find? hid, i, hi, rfl⟩
      split at h
      · next hmem =>
        cases h
        obtain ⟨hloop, hsuffix⟩ := hstack.loop hlast himports (by simpa using hmem)
        exact ⟨_, d, i, hloop, hd, hi, hsuffix, rfl⟩
      · next hmem =>
        rcases bind_eq_error h with h | ⟨s', -, h⟩
        · exact hvisit h hid (by simpa using hmem) himports
        · exact ih hrest h

section
variable {w : Workspace} (hw : w.Tidy) {fault : Fault}
include hw

variable {id : DraftId} {s : Sorted}

theorem Tidy.registers {p : String} (hp : w.registry.find? p = some id) :
    ∃ d, w.draft? id = some d ∧ d.file = p ∧ w.Registers d := by
  obtain ⟨d, hd, rfl⟩ := hw hp
  exact ⟨d, hd, rfl, id, hp, hd⟩

theorem showsRing_sortFrom {n : Nat} {path : String}
    (h : sortFrom w n stack path id s = .error fault) (hpath : w.registry.find? path = some id)
    (hstack : w.Waits stack) (hnew : path ∉ stack)
    (himports : ∀ q ∈ stack.getLast?, w.Imports q path) : w.ShowsRing fault := by
  induction n generalizing stack path id s fault with
  | zero => cases h
  | succ n ih =>
    rw [sortFrom] at h
    split at h
    · cases h
    · obtain ⟨d, hd, rfl, hregisters⟩ := hw.registers hpath
      rw [hd] at h
      rcases bind_eq_error h with h | ⟨s', -, h⟩
      · have hinner := hstack.concat hnew himports
        refine showsRing_sortImports hregisters hinner (by simp) ?_ (Subset.refl _) h
        intro p j s fault h hp hnew' hp'
        refine ih h hp hinner hnew' fun q hq => ?_
        rw [getLast?_concat, Option.mem_some_iff] at hq
        rwa [← hq]
      · cases h

theorem showsRing_sortAll {es : List (String × DraftId)}
    (hes : ∀ e ∈ es, w.registry.find? e.1 = some e.2) (h : w.sortAll es s = .error fault) :
    w.ShowsRing fault := by
  induction es generalizing s with
  | nil => cases h
  | cons e es ih =>
    rw [sortAll] at h
    rcases bind_eq_error h with h | ⟨s', -, h⟩
    · exact showsRing_sortFrom hw h (hes e mem_cons_self) (.nil w) (by simp) (by simp)
    · exact ih (fun x hx => hes x (mem_cons_of_mem e hx)) h

/-- **If there is no order, the fault shows files that import each other.** -/
theorem showsRing_of_order (h : w.order = .error fault) : w.ShowsRing fault := by
  rcases bind_eq_error h with h | ⟨s, -, h⟩
  · exact showsRing_sortAll hw (fun e he => (mem_entries_iff _ _ _).1 he) h
  · cases h

/-! ## Rings that there are -/

theorem not_transGen_of_order {ids : List DraftId} (h : w.order = .ok ids) (p : String) :
    ¬ Relation.TransGen w.Imports p p := by
  obtain ⟨rank, -, hrank⟩ := exists_rank hw h
  have hstep : ∀ {a b}, w.Imports a b → rank b < rank a := by
    rintro a b ⟨d, ⟨id, hid, hd⟩, rfl, hb, i, hi, rfl⟩
    obtain ⟨j, hj⟩ := (contains_iff _ _).1 hb
    exact hrank hid hd i hi j hj
  have hrun : ∀ {a b}, Relation.TransGen w.Imports a b → rank b < rank a := by
    intro a b hab
    induction hab with
    | single hab => exact hstep hab
    | tail _ hbc ih => exact (hstep hbc).trans ih
  exact fun hp => Nat.lt_irrefl _ (hrun hp)

theorem order_eq_error_iff :
    (∃ fault, w.order = .error fault) ↔ ∃ p, Relation.TransGen w.Imports p p := by
  constructor
  · rintro ⟨fault, h⟩
    obtain ⟨files, -, -, hloop, -⟩ := showsRing_of_order hw h
    obtain ⟨p, hp, hall⟩ := hloop.exists_transGen
    exact ⟨p, (hall p hp).1⟩
  · rintro ⟨p, hp⟩
    cases h : w.order with
    | error fault => exact ⟨fault, rfl⟩
    | ok ids => exact absurd hp (not_transGen_of_order hw h p)

/-! ## Orders -/

omit hw in
/-- Every registered draft once, each import before the draft that has it. -/
structure Sorts (w : Workspace) (ids : List DraftId) : Prop where
  perm : ids.Perm w.registry.values
  before : ∀ {p q}, w.Imports p q → ∃ a b, w.registry.find? p = some a ∧ w.registry.find? q =
    some b ∧ [b, a].Sublist ids

theorem Tidy.nodup_values : w.registry.values.Nodup := by
  rw [values, nodup_map_iff_inj_on w.registry.nodup.of_map]
  rintro ⟨p, a⟩ hp ⟨q, b⟩ hq rfl
  rw [mem_entries_iff] at hp hq
  rw [hw.path_unique hp hq]

theorem sorts_of_order {ids : List DraftId} (h : w.order = .ok ids) : w.Sorts ids := by
  obtain ⟨hordered, hall⟩ := ordered_order hw h
  refine ⟨?_, ?_⟩
  · refine (perm_ext_iff_of_nodup hordered.nodup hw.nodup_values).2 fun id => ?_
    rw [mem_values_iff]
    exact ⟨hordered.registered id, fun ⟨p, hp⟩ => hall hp⟩
  · rintro p q ⟨d, ⟨a, ha, hd⟩, rfl, hq, i, hi, rfl⟩
    obtain ⟨b, hb⟩ := (contains_iff _ _).1 hq
    obtain ⟨pre, post, rfl⟩ := append_of_mem (hall ha)
    have hpre : b ∈ pre := hordered.before rfl hd i hi b hb
    refine ⟨a, b, ha, hb, ?_⟩
    exact (singleton_sublist.2 hpre).append (singleton_sublist.2 mem_cons_self)

theorem refineAll_eq_circularImport_iff {w' : Workspace} :
    (w.refineAll = (w', .error fault) ∧ fault.code = .circularImport) ↔
      (w.order = .error fault ∧ w' = w) := by
  constructor
  · rintro ⟨h, hcode⟩
    unfold refineAll at h
    split at h
    · next horder =>
      cases h
      exact ⟨horder, rfl⟩
    · split at h
      · next heach =>
        cases h
        have hmem := code_of_refineEach heach
        rw [hcode] at hmem
        exact absurd hmem (by decide)
      · cases h
  · rintro ⟨h, rfl⟩
    obtain ⟨files, d, i, -, -, -, -, rfl⟩ := showsRing_of_order hw h
    exact ⟨by rw [refineAll, h], rfl⟩

/-- **The order of a workspace** lists every registered draft once, imports first.
    There is none just if files import each other; then the fault shows a ring of
    them, and the drafts are left as they were. -/
theorem order_sorts_or_showsRing :
    (∀ ids, w.order = .ok ids → w.Sorts ids) ∧
    (∀ fault, w.order = .error fault → w.ShowsRing fault) ∧
    ((∃ fault, w.order = .error fault) ↔ ∃ p, Relation.TransGen w.Imports p p) ∧
    ∀ w' fault, (w.refineAll = (w', .error fault) ∧ fault.code = .circularImport) ↔
      (w.order = .error fault ∧ w' = w) :=
  ⟨fun _ h => sorts_of_order hw h, fun _ h => showsRing_of_order hw h, order_eq_error_iff hw,
    fun _ _ => refineAll_eq_circularImport_iff hw⟩

end

theorem tidy_iff : w.Tidy ↔ ∀ e ∈ w.registry.entries, (w.draft? e.2).map (·.file) = some e.1 := by
  constructor
  · rintro h ⟨p, id⟩ he
    obtain ⟨d, hd, rfl⟩ := h ((mem_entries_iff _ _ _).1 he)
    rw [hd, Option.map_some]
  · intro h p id hp
    exact Option.map_eq_some_iff.1 (h (p, id) ((mem_entries_iff _ _ _).2 hp))

instance (w : Workspace) : Decidable w.Tidy := decidable_of_iff _ tidy_iff.symm

/-- A workspace of empty files, given by their paths and what they import. -/
def ofImports (files : List (String × List String)) : Workspace :=
  files.foldl (fun w f => w.insert f.1
    { file := f.1, stem := Path.stem f.1, top := {}, arena := [], attached := .empty,
      imports := f.2.map fun p => ⟨p, none, 1⟩ }) (.empty ".def")

/-- A file that is imported on two ways, twice on one of them, and an import that
    leads nowhere. -/
def diamond : Workspace := ofImports
  [("/a.def", ["b", "c", "x"]), ("/b.def", ["d", "./d.def"]), ("/c.def", ["d"]), ("/d.def", [])]

/-- Two files that import each other, below two that do not. -/
def looped : Workspace := ofImports
  [("/a.def", ["b", "c"]), ("/b.def", ["d"]), ("/c.def", ["b/../d", "d"]),
  ("/d.def", ["x", "c.def"])]

theorem order_diamond_looped : diamond.Tidy ∧ diamond.Sorts [3, 1, 2, 0] ∧ looped.Tidy ∧
    looped.ShowsRing
      { cause := .importCycle ["/d.def", "/c.def", "/d.def"], file := "/c.def", line := 1 } ∧
    ∃ p, Relation.TransGen looped.Imports p p := by
  have hdiamond : diamond.Tidy := by decide +kernel
  have hlooped : looped.Tidy := by decide +kernel
  have hsorted : diamond.order = .ok [3, 1, 2, 0] := by decide +kernel
  have hfault : looped.order = .error
      { cause := .importCycle ["/d.def", "/c.def", "/d.def"], file := "/c.def", line := 1 } := by
    decide +kernel
  obtain ⟨hsorts, -, -, -⟩ := order_sorts_or_showsRing hdiamond
  obtain ⟨-, hshows, hiff, -⟩ := order_sorts_or_showsRing hlooped
  exact ⟨hdiamond, hsorts _ hsorted, hlooped, hshows _ hfault, hiff.1 ⟨_, hfault⟩⟩

end Workspace

end MessageSchema
