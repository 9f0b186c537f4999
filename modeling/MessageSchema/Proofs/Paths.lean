/-
  Absolute paths.

  * `Path.absolute_absolute`, `Path.absolute_ofImport`: the path of a compiled or of an
    imported file is absolute, and so names the same file wherever it is read from.
-/
import MessageSchema.Path
import Mathlib.Data.List.Induction

namespace MessageSchema

open List

/-! ## Cutting at a character -/

namespace Text

theorem splitFrom_atChar (d : Char) (part s : List Char) :
    splitFrom (atChar d) 0 part s = (s.splitOn d).modifyHead (part.reverse ++ ·) := by
  induction s generalizing part with
  | nil => simp [splitFrom]
  | cons c s ih =>
    rw [splitFrom, splitOn, splitOnP_cons_eq_if_modifyHead, ← splitOn]
    cases hs : s.splitOn d with
    | nil => exact absurd hs (splitOn_ne_nil _ _)
    | cons first rest =>
      by_cases hc : c = d
      · simp [atChar, hc, ih, hs]
      · simp [atChar, hc, ih, hs]

theorem split_atChar (d : Char) (s : String) :
    split (atChar d) s = (s.toList.splitOn d).map String.ofList := by
  rw [split, splitFrom_atChar]
  cases s.toList.splitOn d <;> rfl

theorem not_mem_of_mem_splitOn {d : Char} {s part : List Char} (h : part ∈ s.splitOn d) :
    d ∉ part := by
  induction s generalizing part with
  | nil => simp_all
  | cons c s ih =>
    rw [splitOn, splitOnP_cons_eq_if_modifyHead, ← splitOn] at h
    split at h
    · rcases mem_cons.1 h with rfl | h
      · exact not_mem_nil
      · exact ih h
    · next hc =>
      cases hs : s.splitOn d with
      | nil => rw [hs] at h; cases h
      | cons first rest =>
        rw [hs] at h
        rcases mem_cons.1 h with rfl | h
        · have hfirst : d ∉ first := ih (by rw [hs]; exact mem_cons_self)
          exact not_mem_cons_of_ne_of_not_mem (fun e => hc (by simp [e])) hfirst
        · exact ih (by rw [hs]; exact mem_cons_of_mem _ h)

end Text

/-! ## Components -/

namespace Path

variable {cs : List String}

/-- A text that can stand between two slashes. -/
def IsComponent (c : String) : Prop := c ≠ "" ∧ '/' ∉ c.toList

theorem isComponent_of_mem {p c : String} (h : c ∈ components p) : IsComponent c := by
  rw [components, Text.split_atChar, mem_filter] at h
  obtain ⟨part, hpart, rfl⟩ := mem_map.1 h.1
  refine ⟨by simpa using h.2, ?_⟩
  rw [String.toList_ofList]
  exact Text.not_mem_of_mem_splitOn hpart

/-- The components of a path that is put together of components. -/
theorem components_intercalate (h : ∀ c ∈ cs, IsComponent c) :
    components ("/" ++ "/".intercalate cs) = cs := by
  have hkeep : cs.filter (· ≠ "") = cs := filter_eq_self.2 fun c hc => by simpa using (h c hc).1
  have hback : (cs.map String.toList).map String.ofList = cs := by simp [Function.comp_def]
  cases cs with
  | nil => decide
  | cons c cs =>
    -- the slash at the start cuts off an empty component
    have hlist : ("/" ++ "/".intercalate (c :: cs)).toList =
        ['/'].intercalate ([] :: (c :: cs).map String.toList) := by
      simp [String.toList_append, String.toList_intercalate]
    rw [components, Text.split_atChar, hlist, splitOn_intercalate, map_cons, hback]
    · exact hkeep
    · intro l hl
      rcases mem_cons.1 hl with rfl | hl
      · exact not_mem_nil
      · obtain ⟨c', hc', rfl⟩ := mem_map.1 hl
        exact (h c' hc').2
    · simp

/-! ## Dots -/

theorem mem_resolveDots {c : String} (h : c ∈ resolveDots cs) : c ∈ cs ∧ c ≠ "." ∧ c ≠ ".." := by
  revert h
  rw [resolveDots]
  refine foldlRecOn (motive := fun done => c ∈ done → c ∈ cs ∧ c ≠ "." ∧ c ≠ "..") cs _ ?_ ?_
  · intro h; cases h
  · intro done ih x hx h
    split at h
    · exact ih h
    · next hdot =>
      split at h
      · exact ih ((dropLast_subset _) h)
      · next hdots =>
        rcases mem_append.1 h with h | h
        · exact ih h
        · cases mem_singleton.1 h
          exact ⟨hx, hdot, hdots⟩

theorem resolveDots_of_no_dots (h : ∀ c ∈ cs, c ≠ "." ∧ c ≠ "..") : resolveDots cs = cs := by
  induction cs using reverseRecOn with
  | nil => rfl
  | append_singleton cs c ih =>
    obtain ⟨hdot, hdots⟩ := h c (by simp)
    have hcs := ih fun c hc => h c (mem_append_left _ hc)
    rw [resolveDots] at hcs ⊢
    rw [foldl_append, hcs, foldl_cons, foldl_nil, if_neg hdot, if_neg hdots]

/-- **The components of an absolute path.** -/
theorem components_ofComponents (h : ∀ c ∈ cs, IsComponent c) :
    components (ofComponents cs) = resolveDots cs :=
  components_intercalate fun c hc => h c (mem_resolveDots hc).1

theorem absolute_ofComponents (h : ∀ c ∈ cs, IsComponent c) :
    absolute (ofComponents cs) = ofComponents cs := by
  rw [absolute, components_ofComponents h, ofComponents, ofComponents,
    resolveDots_of_no_dots fun c hc => (mem_resolveDots hc).2]

theorem absolute_absolute (p : String) : absolute (absolute p) = absolute p :=
  absolute_ofComponents fun _ hc => isComponent_of_mem hc

/-- **The path of an imported file is absolute.** -/
theorem absolute_ofImport (ext importing path : String) :
    absolute (ofImport ext importing path) = ofImport ext importing path := by
  simp only [ofImport]
  generalize (if extension path = "" then path ++ ext else path) = target
  split
  · exact absolute_absolute target
  · refine absolute_ofComponents fun c hc => ?_
    rcases mem_append.1 hc with hc | hc
    · exact isComponent_of_mem ((dropLast_subset _) hc)
    · exact isComponent_of_mem hc

end Path

end MessageSchema
