/-
  The models that a model imports, directly or not.
-/
import MessageSchema.Model.Library
import MessageSchema.Proofs.Tables
import Mathlib.Logic.Relation

namespace MessageSchema.Library

open List

open Relation

variable {f : String} {lib : Library} {g : String}

/-- A model imports another, directly. -/
def Imports (lib : Library) (f g : String) : Prop :=
  ∃ m, lib.find? f = some m ∧ g ∈ m.imports.values

/-- A chain of imports leads from a file to another. -/
abbrev Reaches (lib : Library) : String → String → Prop := ReflTransGen lib.Imports

/-- All that the models of a library import is in the library. -/
def Closed (lib : Library) : Prop := ∀ f g, lib.Imports f g → lib.contains g = true

/-- Two libraries have the same models along the imports from a file. -/
def AgreesFrom (lib lib' : Library) (f : String) : Prop :=
  ∀ g, lib.Reaches f g → lib.find? g = lib'.find? g

theorem AgreesFrom.step {lib' : Library} (h : lib.AgreesFrom lib' f) (hg : lib.Imports f g) :
    lib.AgreesFrom lib' g :=
  fun k hk => h k (hk.head hg)

theorem Closed.contains_of_reaches (h : lib.Closed) (hf : lib.contains f = true)
    (hg : lib.Reaches f g) : lib.contains g = true := by
  induction hg with
  | refl => exact hf
  | tail _ hg _ => exact h _ _ hg

/-! ## One walk -/

section
variable (lib : Library) {n n' : Nat} {seen : List String} {f : String} {m : Model}

theorem reachFrom_of_mem (h : f ∈ seen) : reachFrom lib n seen f = seen := by
  cases n with
  | zero => rfl
  | succ n => rw [reachFrom, if_pos (by simpa using h)]

theorem reachFrom_of_find?_eq_none (h : lib.find? f = none) : reachFrom lib n seen f = seen := by
  cases n with
  | zero => rfl
  | succ n => rw [reachFrom, h]; exact ite_self _

theorem reachFrom_of_find? (h : f ∉ seen) (hm : lib.find? f = some m) :
    reachFrom lib (n + 1) seen f = m.imports.values.foldl (reachFrom lib n) (seen ++ [f]) := by
  rw [reachFrom, if_neg (by simpa using h), hm]

theorem prefix_reachFrom (n : Nat) (seen : List String) (f : String) :
    seen <+: reachFrom lib n seen f := by
  induction n generalizing seen f with
  | zero => exact prefix_refl _
  | succ n ih =>
    by_cases hf : f ∈ seen
    · exact (reachFrom_of_mem lib hf).symm ▸ prefix_refl seen
    · rcases hm : lib.find? f with _ | m
      · exact (reachFrom_of_find?_eq_none lib hm).symm ▸ prefix_refl seen
      · rw [reachFrom_of_find? lib hf hm]
        exact foldlRecOn _ _ (prefix_append _ _) fun s hs c _ => hs.trans (ih s c)

theorem prefix_foldl_reachFrom (n : Nat) (seen cs : List String) :
    seen <+: cs.foldl (reachFrom lib n) seen :=
  foldlRecOn cs _ (prefix_refl _) fun s hs c _ => hs.trans (prefix_reachFrom lib n s c)

theorem nodup_reachFrom (n : Nat) (h : seen.Nodup) (f : String) :
    (reachFrom lib n seen f).Nodup := by
  induction n generalizing seen f with
  | zero => exact h
  | succ n ih =>
    by_cases hf : f ∈ seen
    · rwa [reachFrom_of_mem lib hf]
    · rcases hm : lib.find? f with _ | m
      · rwa [reachFrom_of_find?_eq_none lib hm]
      · rw [reachFrom_of_find? lib hf hm]
        refine foldlRecOn _ _ ?_ fun s hs c _ => ih hs c
        rw [← concat_eq_append]
        exact h.concat hf

/-- What a walk adds is in the library, and imports lead to it. -/
theorem reaches_of_mem_reachFrom (h : g ∈ reachFrom lib n seen f) :
    g ∈ seen ∨ (lib.Reaches f g ∧ lib.contains g = true) := by
  induction n generalizing seen f with
  | zero => exact .inl h
  | succ n ih =>
    by_cases hf : f ∈ seen
    · rw [reachFrom_of_mem lib hf] at h; exact .inl h
    · rcases hm : lib.find? f with _ | m
      · rw [reachFrom_of_find?_eq_none lib hm] at h; exact .inl h
      · rw [reachFrom_of_find? lib hf hm] at h
        revert h
        refine foldlRecOn (motive := fun s => g ∈ s → _) _ _ ?_ fun s hs c hc h => ?_
        · intro h
          rcases mem_append.1 h with h | h
          · exact .inl h
          · rw [mem_singleton] at h
            subst h
            exact .inr ⟨.refl, Table.contains_of_find? hm⟩
        · rcases ih h with h | ⟨hr, hg⟩
          · exact hs h
          · exact .inr ⟨hr.head ⟨m, hm, hc⟩, hg⟩

/-- The files that a walk has added are listed with all that they import. -/
def ImportsListed (seen out : List String) : Prop :=
  ∀ g ∈ out, g ∉ seen → ∀ k, lib.Imports g k → lib.contains k = true → k ∈ out

theorem unlisted_append_lt {lib : Library} (h : f ∉ seen) (hm : lib.find? f = some m) :
    unlisted lib.keys (seen ++ [f]) < unlisted lib.keys seen :=
  unlisted_lt (subset_append_left seen [f]) (Table.mem_keys_of_find? hm) h (by simp)

/-- Walks list all they should if each of them does. -/
theorem foldl_reachFrom_complete
    (h : ∀ (f : String) {seen : List String}, unlisted lib.keys seen < n →
      (lib.contains f = true → f ∈ reachFrom lib n seen f) ∧
      lib.ImportsListed seen (reachFrom lib n seen f))
    (fs : List String) (hn : unlisted lib.keys seen < n) :
    (∀ f ∈ fs, lib.contains f = true → f ∈ fs.foldl (reachFrom lib n) seen) ∧
      lib.ImportsListed seen (fs.foldl (reachFrom lib n) seen) := by
  induction fs generalizing seen with
  | nil => exact ⟨by simp, fun g hg hs => absurd hg hs⟩
  | cons f fs ih =>
    obtain ⟨hself, himports⟩ := h f hn
    have hgrow := (prefix_reachFrom lib n seen f).subset
    obtain ⟨hselves, hrest⟩ := ih (Nat.lt_of_le_of_lt (unlisted_mono hgrow) hn)
    have hstay := (prefix_foldl_reachFrom lib n (reachFrom lib n seen f) fs).subset
    refine ⟨fun f' hf' hl => ?_, fun g hg hgs k hk hl => ?_⟩
    · rcases mem_cons.1 hf' with rfl | hf'
      · exact hstay (hself hl)
      · exact hselves f' hf' hl
    · by_cases hgf : g ∈ reachFrom lib n seen f
      · exact hstay (himports g hgf hgs k hk hl)
      · exact hrest g hg hgf k hk hl

/-- With enough depth, a walk lists its start and, with every file that it adds,
    the files that this one imports. -/
theorem reachFrom_complete (hn : unlisted lib.keys seen < n) (f : String) :
    (lib.contains f = true → f ∈ reachFrom lib n seen f) ∧
      lib.ImportsListed seen (reachFrom lib n seen f) := by
  induction n generalizing seen f with
  | zero => omega
  | succ n ih =>
    by_cases hf : f ∈ seen
    · rw [reachFrom_of_mem lib hf]
      exact ⟨fun _ => hf, fun g hg hs => absurd hg hs⟩
    · rcases hm : lib.find? f with _ | m
      · rw [reachFrom_of_find?_eq_none lib hm]
        refine ⟨fun hl => ?_, fun g hg hs => absurd hg hs⟩
        simp [Table.contains, hm] at hl
      · rw [reachFrom_of_find? lib hf hm]
        have hlt := unlisted_append_lt hf hm
        obtain ⟨hself, himports⟩ :=
          foldl_reachFrom_complete lib (fun f _ hs => ih hs f) m.imports.values
          (show unlisted lib.keys (seen ++ [f]) < n by omega)
        have hgrow := (prefix_foldl_reachFrom lib n (seen ++ [f]) m.imports.values).subset
        refine ⟨fun _ => hgrow (by simp), fun g hg hs k hk hl => ?_⟩
        -- the start of the walk was listed before the walks from its imports
        by_cases hgf : g = f
        · obtain ⟨m', hm', hk⟩ := hk
          rw [hgf, hm] at hm'
          cases hm'
          exact hself k hk hl
        · exact himports g hg (by simp [hs, hgf]) k hk hl

theorem foldl_reachFrom_congr {lib lib' : Library}
    (h : ∀ (f : String) {seen : List String}, lib.AgreesFrom lib' f → unlisted lib.keys seen < n →
      unlisted lib'.keys seen < n' → reachFrom lib n seen f = reachFrom lib' n' seen f)
    {fs : List String} (hfs : ∀ f ∈ fs, lib.AgreesFrom lib' f) (hn : unlisted lib.keys seen < n)
    (hn' : unlisted lib'.keys seen < n') :
    fs.foldl (reachFrom lib n) seen = fs.foldl (reachFrom lib' n') seen := by
  induction fs generalizing seen with
  | nil => rfl
  | cons f fs ih =>
    have hgrow := (prefix_reachFrom lib n seen f).subset
    rw [foldl_cons, foldl_cons, ← h f (hfs f mem_cons_self) hn hn']
    exact ih (fun f' hf' => hfs f' (mem_cons_of_mem _ hf'))
      (Nat.lt_of_le_of_lt (unlisted_mono hgrow) hn) (Nat.lt_of_le_of_lt (unlisted_mono hgrow) hn')

theorem reachFrom_congr {lib lib' : Library} (h : lib.AgreesFrom lib' f)
    (hn : unlisted lib.keys seen < n) (hn' : unlisted lib'.keys seen < n') :
    reachFrom lib n seen f = reachFrom lib' n' seen f := by
  induction n generalizing n' seen f with
  | zero => omega
  | succ n ih =>
    obtain ⟨n', rfl⟩ : ∃ k, n' = k + 1 := ⟨n' - 1, by omega⟩
    have hff : lib.find? f = lib'.find? f := h f .refl
    by_cases hf : f ∈ seen
    · rw [reachFrom_of_mem lib hf, reachFrom_of_mem lib' hf]
    · rcases hm : lib.find? f with _ | m
      · rw [reachFrom_of_find?_eq_none lib hm, reachFrom_of_find?_eq_none lib' (hff ▸ hm)]
      · rw [reachFrom_of_find? lib hf hm, reachFrom_of_find? lib' hf (hff ▸ hm)]
        have hlt := unlisted_append_lt hf hm
        have hlt' := unlisted_append_lt hf (hff ▸ hm)
        exact foldl_reachFrom_congr (fun f _ hagree hn hn' => ih hagree hn hn')
          (fun c hc => h.step ⟨m, hm, hc⟩) (by omega) (by omega)

end

/-! ## The files reachable from a file -/

variable {lib' : Library}

theorem unlisted_keys_nil_lt (lib : Library) : unlisted lib.keys [] < lib.size + 1 :=
  Nat.lt_succ_of_le (unlisted_keys_le lib [])

theorem nodup_reachableFiles (lib : Library) (f : String) : (lib.reachableFiles f).Nodup :=
  nodup_reachFrom lib _ nodup_nil f

theorem reaches_of_mem_reachableFiles (h : g ∈ lib.reachableFiles f) :
    lib.Reaches f g ∧ lib.contains g = true :=
  (reaches_of_mem_reachFrom lib h).resolve_left not_mem_nil

/-- **The files listed from a file are those that chains of imports lead to.** -/
theorem mem_reachableFiles_iff (hl : lib.Closed) (hf : lib.contains f = true) :
    g ∈ lib.reachableFiles f ↔ lib.Reaches f g := by
  constructor
  · exact fun h => (reaches_of_mem_reachableFiles h).1
  · obtain ⟨h1, h2⟩ := reachFrom_complete lib (unlisted_keys_nil_lt lib) f
    intro h
    induction h with
    | refl => exact h1 hf
    | tail _ hg ih => exact h2 _ ih (by simp) _ hg (hl _ _ hg)

theorem mem_reachable_iff (hl : lib.Closed) (hf : lib.contains f = true) {m : Model} :
    m ∈ lib.reachable f ↔ ∃ g, lib.Reaches f g ∧ lib.find? g = some m := by
  simp [reachable, mem_reachableFiles_iff hl hf]

/-- **What is listed from a file depends only on the models along its imports.** -/
theorem reachableFiles_congr (h : lib.AgreesFrom lib' f) :
    lib.reachableFiles f = lib'.reachableFiles f :=
  reachFrom_congr h (unlisted_keys_nil_lt lib) (unlisted_keys_nil_lt lib')

theorem reachable_congr (h : lib.AgreesFrom lib' f) : lib.reachable f = lib'.reachable f := by
  rw [reachable, reachable, ← reachableFiles_congr h]
  exact filterMap_congr fun g hg => h g (reaches_of_mem_reachableFiles hg).1

end MessageSchema.Library
