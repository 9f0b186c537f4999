/-
  The order in which imported models are searched.

  A name is looked for in the model of a file and then in those of its imports, as a walk
  meets them that lists no file twice.  A file that is being built has no model yet: its
  names are looked for in the walks from its imports, one after the other.  If no file
  imports itself, directly or not, both search the same models in the same order.
-/
import MessageSchema.Proofs.Loops
import MessageSchema.Proofs.References

namespace MessageSchema

open List Table

theorem eraseDups_filter (p : String → Bool) (xs : List String) :
    (xs.filter p).eraseDups = xs.eraseDups.filter p := by
  induction xs generalizing p with
  | nil => rfl
  | cons x xs ih =>
    rw [eraseDups_cons, ih]
    by_cases hx : p x = true
    · rw [filter_cons_of_pos hx, filter_cons_of_pos hx, eraseDups_cons, filter_filter, ih,
        filter_filter]
      simp only [Bool.and_comm]
    · rw [filter_cons_of_neg hx, filter_cons_of_neg hx, ih, filter_filter]
      refine filter_congr fun y _ => ?_
      by_cases hy : y = x <;> simp [hy, hx]

theorem eraseDups_of_nodup {xs : List String} (h : xs.Nodup) : xs.eraseDups = xs := by
  induction xs with
  | nil => rfl
  | cons x xs ih =>
    obtain ⟨hx, hxs⟩ := nodup_cons.1 h
    rw [eraseDups_cons, eraseDups_filter, ih hxs, filter_eq_self.2]
    intro y hy
    simp only [Bool.not_eq_true', beq_eq_false_iff_ne]
    exact fun heq => hx (heq ▸ hy)

namespace Library

open Relation

variable {f : String} {lib : Library} {seen : List String} {n : Nat}

/-- No file imports itself, directly or through others. -/
def Acyclic (lib : Library) : Prop := ∀ f, ¬ TransGen lib.Imports f f

theorem Acyclic.acc (h : lib.Acyclic) (f : String) : Acc (fun g f => lib.Imports f g) f := by
  refine @acc_of_not_loop _ lib.keys (fun f g hfg => ?_) (fun path hloop => ?_) f
  · obtain ⟨m, hm, -⟩ := hfg
    exact mem_keys_of_find? hm
  · obtain ⟨g, hg, hall⟩ := hloop.exists_transGen
    exact h g (hall g hg).1

/-- All that listed files lead to is listed, as far as `f` leads to these. -/
def Settled (lib : Library) (seen : List String) (f : String) : Prop :=
  ∀ g ∈ seen, lib.Reaches f g → ∀ k, lib.Reaches g k → k ∈ seen

/-- A walk adds to the listed files what it would list alone. -/
def Adds (lib : Library) (f : String) : Prop :=
  ∀ {n : Nat} {seen : List String}, unlisted lib.keys seen < n → lib.Settled seen f →
    reachFrom lib n seen f = seen ++ (lib.reachableFiles f).filter (· ∉ seen)

section

variable (hl : lib.Closed)
include hl

theorem foldl_reachFrom_eq {fs : List String} (hfs : ∀ f ∈ fs, lib.contains f = true ∧ lib.Adds f)
    (hn : unlisted lib.keys seen < n) (hseen : ∀ f ∈ fs, lib.Settled seen f) :
    fs.foldl (reachFrom lib n) seen = seen ++ (fs.flatMap lib.reachableFiles).eraseDups.filter
      (· ∉ seen) := by
  induction fs generalizing seen with
  | nil => simp
  | cons f fs ih =>
    obtain ⟨⟨hf, hadds⟩, hfs⟩ := forall_mem_cons.1 hfs
    obtain ⟨hfirst, hseen⟩ := forall_mem_cons.1 hseen
    have hgrow := (prefix_reachFrom lib n seen f).subset
    rw [foldl_cons]
    rw [hadds hn hfirst] at hgrow ⊢
    have hmem : ∀ g, g ∈ seen ++ (lib.reachableFiles f).filter (· ∉ seen) ↔ g ∈ seen ∨
        lib.Reaches f g := by
      intro g
      by_cases hg : g ∈ seen <;> simp [hg, mem_reachableFiles_iff hl hf]
    -- the files of the first walk are listed with all that they lead to
    have hsettled : ∀ f' ∈ fs,
        lib.Settled (seen ++ (lib.reachableFiles f).filter (· ∉ seen)) f' := by
      intro f' hf' g hg hreach k hk
      exact (hmem k).2 (((hmem g).1 hg).imp (fun hg => hseen f' hf' g hg hreach k hk) fun hg =>
        hg.trans hk)
    rw [ih hfs (Nat.lt_of_le_of_lt (unlisted_mono hgrow) hn) hsettled, flatMap_cons,
      eraseDups_append, eraseDups_of_nodup (nodup_reachableFiles lib f), removeAll,
      eraseDups_filter, filter_append, filter_filter, append_assoc]
    congr 2
    refine filter_congr fun g _ => ?_
    by_cases hg : g ∈ seen <;> simp [hg]

variable (ha : lib.Acyclic)
include ha

variable {m : Model}

/-- **A walk adds what it would list alone**, and alone it lists its start and then what the
    walks from the imports list. -/
theorem reachFrom_eq (hm : lib.find? f = some m) :
    lib.Adds f ∧ lib.reachableFiles f =
      f :: (m.imports.values.flatMap lib.reachableFiles).eraseDups := by
  induction ha.acc f generalizing m with
  | intro f _ ih =>
    have hadds : ∀ g ∈ m.imports.values, lib.contains g = true ∧ lib.Adds g := fun g hg => by
      have himports : lib.Imports f g := ⟨m, hm, hg⟩
      obtain ⟨x, hx⟩ := (contains_iff _ _).1 (hl f g himports)
      exact ⟨hl f g himports, (ih g himports hx).1⟩
    -- no import leads back to the start
    have hback : ∀ g ∈ m.imports.values, ¬ lib.Reaches g f := fun g hg hreach =>
      ha f (TransGen.head' ⟨m, hm, hg⟩ hreach)
    have hwalk : ∀ {n seen}, unlisted lib.keys seen < n + 1 → f ∉ seen → lib.Settled seen f →
        reachFrom lib (n + 1) seen f =
          seen ++ (f :: (m.imports.values.flatMap lib.reachableFiles).eraseDups).filter
          (· ∉ seen) := by
      intro n seen hn hf hseen
      have hlt := unlisted_append_lt hf hm
      rw [reachFrom_of_find? lib hf hm, foldl_reachFrom_eq hl hadds (by omega),
        filter_cons_of_pos (by simpa using hf), append_assoc, singleton_append]
      · congr 2
        refine filter_congr fun k hk => ?_
        obtain ⟨g, hg, hk⟩ := mem_flatMap.1 (mem_eraseDups.1 hk)
        have hne : k ≠ f := fun heq => hback g hg (heq ▸ (reaches_of_mem_reachableFiles hk).1)
        simp [hne]
      · intro g hg k hk hreach x hx
        rcases mem_append.1 hk with hk | hk
        · exact mem_append_left _ (hseen k hk (hreach.head ⟨m, hm, hg⟩) x hx)
        · exact absurd (mem_singleton.1 hk ▸ hreach) (hback g hg)
    have hlist : lib.reachableFiles f =
        f :: (m.imports.values.flatMap lib.reachableFiles).eraseDups := by
      rw [reachableFiles, hwalk (unlisted_keys_nil_lt lib) not_mem_nil (fun g hg => by cases hg)]
      simp
    refine ⟨fun {n seen} hn hseen => ?_, hlist⟩
    by_cases hf : f ∈ seen
    · rw [reachFrom_of_mem lib hf, filter_eq_nil_iff.2, append_nil]
      intro g hg
      simpa using hseen f hf .refl g (reaches_of_mem_reachableFiles hg).1
    · obtain ⟨n, rfl⟩ : ∃ k, n = k + 1 := ⟨n - 1, by omega⟩
      rw [hwalk hn hf hseen, hlist]

theorem reachable_eq (hm : lib.find? f = some m) :
    lib.reachable f = m :: Model.Binder.importedModels lib m.imports := by
  rw [reachable, (reachFrom_eq hl ha hm).2, filterMap_cons_some hm]
  rfl

theorem lookup?_eq (hm : lib.find? f = some m) {d : Draft} (hd : Model.Models lib d m)
    (q : String) :
    lib.lookup? f q = if (Model.binderOf lib d m.imports).declared.contains q then m.own? q
      else (Model.binderOf lib d m.imports).importedEntity? q := by
  rw [lookup?, reachable_eq hl ha hm, findSome?_cons]
  cases hq : (Model.binderOf lib d m.imports).declared.find? q with
  | some x =>
    obtain ⟨e, he, -⟩ := hd.own?_of_declared hq
    rw [if_pos (contains_of_find? hq), he]
  | none =>
    have hown : m.own? q = none := Option.eq_none_iff_forall_ne_some.2 fun e he => by
      obtain ⟨-, -, -, x, -, -, hx, -⟩ := hd.becomes_of_own? he
      cases hq.symm.trans hx
    rw [if_neg (by simp [Table.contains, hq]), hown]
    rfl

/-- **Names are bound to what lookups find.**  In models that import each other, none of them
    itself, the walk from a file lists the files that its imports lead to, the file itself first
    and none twice, and it is the file and then what the walks from its imports list, in the order
    of the imports.  Hence a lookup searches the model of the file and then what its builder
    searches in the same order, and gives the entity that a name was bound to, whether or not other
    models have entities of that name. -/
theorem lookup_agrees {m : Model} (hm : lib.find? f = some m) :
    (∀ g, g ∈ lib.reachableFiles f ↔ lib.Reaches f g) ∧ (lib.reachableFiles f).Nodup ∧
    lib.reachableFiles f = f :: (m.imports.values.flatMap lib.reachableFiles).eraseDups ∧
    lib.reachable f = m :: Model.Binder.importedModels lib m.imports ∧
    ∀ d, Model.Models lib d m →
      (∀ q, lib.lookup? f q = if (Model.binderOf lib d m.imports).declared.contains q then m.own? q
        else (Model.binderOf lib d m.imports).importedEntity? q) ∧
      ∀ n : Draft.TypeName, n.resolved = true → (Model.binderOf lib d m.imports).bind? n =
        (lib.lookup? f n.text).map fun e => ⟨e.kind, n.text⟩ := by
  refine ⟨fun g => mem_reachableFiles_iff hl (contains_of_find? hm), nodup_reachableFiles lib f,
    (reachFrom_eq hl ha hm).2, reachable_eq hl ha hm,
    fun d hd => ⟨lookup?_eq hl ha hm hd, fun n hn => ?_⟩⟩
  rw [lookup?_eq hl ha hm hd, Model.Binder.bind?, if_pos hn]
  cases hq : (Model.binderOf lib d m.imports).declared.find? n.text with
  | some x =>
    obtain ⟨e, he, hkind⟩ := hd.own?_of_declared hq
    rw [if_pos (contains_of_find? hq), he, Option.map_some, hkind]
  | none => rw [if_neg (by simp [Table.contains, hq])]

end

/-- A model with one entity, of a name that others may have as well. -/
def owning (file : String) (base : Primitive) (imports : Table String) : Model :=
  ⟨file, file,
    [⟨.none, file, file, none, [], [], [], [], [⟨"E", "n::E", base, [], ⟨.none, file, 1, file⟩⟩],
    file, 1⟩], [0], imports⟩

/-- A file without declarations that imports two others and reaches the second twice:
    by its own import, and through the first. -/
def forked : Draft := ⟨"a", "a", {}, [], [⟨"c", none, 1⟩, ⟨"b", none, 2⟩], .empty⟩

/-- The model of `forked`. -/
def forkedModel : Model := ⟨"a", "a", [], [], (empty.insert "c" "c").insert "b" "b"⟩

/-- The library of `forked` and what it imports. -/
def fork : Library := empty |>.insert "b" (owning "b" .int .empty)
  |>.insert "c" (owning "c" .bool (empty.insert "b" "b")) |>.insert "a" forkedModel

theorem imports_fork {g : String} (h : fork.Imports f g) :
    (f, g) ∈ [("c", "b"), ("a", "c"), ("a", "b")] := by
  obtain ⟨m, hm, hg⟩ := h
  have hedges : fork.entries.flatMap (fun e => e.2.imports.values.map (Prod.mk e.1)) =
      [("c", "b"), ("a", "c"), ("a", "b")] := rfl
  rw [← hedges]
  exact mem_flatMap.2 ⟨(f, m), (mem_entries_iff _ _ _).2 hm, mem_map_of_mem hg⟩

theorem lookup_agrees_fork : fork.Closed ∧ fork.Acyclic ∧ fork.find? "a" = some forkedModel ∧
    Model.Models fork forked forkedModel ∧ fork.reachableFiles "a" = ["a", "c", "b"] ∧
    fork.lookup? "a" "n::E" = (owning "c" .bool (Table.empty.insert "b" "b")).own? "n::E" ∧
    fork.lookup? "a" "n::E" =
      (Model.binderOf fork forked forkedModel.imports).importedEntity? "n::E" ∧
    (Model.binderOf fork forked forkedModel.imports).bind? ⟨"n::E", true⟩ =
      (fork.lookup? "a" "n::E").map fun e => ⟨e.kind, "n::E"⟩ := by
  have hedges : ∀ {p : String × String}, p ∈ [("c", "b"), ("a", "c"), ("a", "b")] →
      fork.contains p.2 = true ∧ ["b", "c", "a"].idxOf p.2 < ["b", "c", "a"].idxOf p.1 := by decide
  have hclosed : fork.Closed := fun f g h => (hedges (imports_fork h)).1
  have hacyclic : fork.Acyclic := fun f h => by
    have hrank :=
      TransGen.lift (p := (· > ·)) (["b", "c", "a"].idxOf ·)
      (fun f g h => (hedges (imports_fork h)).2) f f h
    rw [transGen_eq_self] at hrank
    exact Nat.lt_irrefl _ hrank
  have hmodels : Model.Models fork forked forkedModel :=
    ⟨⟨.nil, forall_mem_nil _, forall_mem_nil _⟩, rfl⟩
  obtain ⟨-, -, -, -, hbound⟩ := lookup_agrees hclosed hacyclic (f := "a") rfl
  exact ⟨hclosed, hacyclic, rfl, hmodels, rfl, rfl, (hbound forked hmodels).1 "n::E",
    (hbound forked hmodels).2 ⟨"n::E", true⟩ rfl⟩

end Library

end MessageSchema
