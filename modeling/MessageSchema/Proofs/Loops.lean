/-
  Loops of a relation between names, and lists that report them.

  `Loop R names` says that each of the names is related to the next one, and that the
  first is repeated at the end.
-/
import MessageSchema.Proofs.Tables
import Mathlib.Data.List.Chain
import Mathlib.Logic.Relation

namespace MessageSchema

open List

open Relation (ReflTransGen TransGen)

/-- Names each related to the next, the first repeated at the end. -/
structure Loop (R : String → String → Prop) (names : List String) : Prop where
  closed : names.head? = names.getLast?
  nonempty : names.dropLast ≠ []
  nodup : names.dropLast.Nodup
  chain : names.IsChain R

/-- Every report is a loop, and every loop is reported exactly once: one report has
    its names, wherever it starts, and no other has any of them. -/
structure Reports (R : String → String → Prop) (reports : List (List String)) : Prop where
  loop : ∀ r ∈ reports, Loop R r
  once : ∀ c, Loop R c → ∃ before r after, reports = before ++ r :: after ∧ (∀ x, x ∈ r ↔ x ∈ c) ∧
    ∀ r' ∈ before ++ after, ∀ x ∈ r', x ∉ c

variable {R : String → String → Prop} {c : List String}

/-! ## Loops -/

variable {path : List String} {q : String}

theorem nodup_concat (h : path.Nodup) (hq : q ∉ path) : (path ++ [q]).Nodup := by
  rw [← concat_eq_append]
  exact h.concat hq

theorem isChain_concat (h : path.IsChain R) {y : String}
    (hy : ∀ x ∈ path.getLast?, R x y) : (path ++ [y]).IsChain R := by
  refine h.append (isChain_singleton y) fun x hx z hz => ?_
  rw [head?_cons, Option.mem_some_iff] at hz
  rw [← hz]
  exact hy x hx

theorem dropWhile_ne_append {before : List String} (h : q ∉ before) (after : List String) :
    (before ++ q :: after).dropWhile (· ≠ q) = q :: after := by
  have hpos : ∀ x ∈ before, decide (x ≠ q) = true := by
    intro x hx
    simp only [ne_eq, decide_eq_true_eq]
    rintro rfl
    exact h hx
  rw [dropWhile_append_of_pos hpos, dropWhile_cons_of_neg (by simp)]

/-- **A chain that comes back to one of its names ends in a loop.** -/
theorem Loop.of_chain (hnodup : path.Nodup) (hchain : (path ++ [q]).IsChain R) (hq : q ∈ path) :
    Loop R (path.dropWhile (· ≠ q) ++ [q]) := by
  obtain ⟨before, after, rfl, hbefore⟩ := eq_append_cons_of_mem hq
  rw [dropWhile_ne_append hbefore]
  rw [append_assoc] at hchain
  refine ⟨?_, ?_, ?_, hchain.right_of_append⟩
  · rw [getLast?_concat, cons_append, head?_cons]
  · rw [dropLast_concat]
    exact cons_ne_nil q after
  · rw [dropLast_concat]
    exact hnodup.sublist (sublist_append_right _ _)

theorem Loop.exists_eq (h : Loop R c) : ∃ q rest, c = q :: rest ++ [q] := by
  obtain ⟨init, q, rfl⟩ : ∃ init q, c = init ++ [q] := by
    have hne : c ≠ [] := fun hnil => h.nonempty (by rw [hnil]; rfl)
    exact ⟨_, _, (dropLast_concat_getLast hne).symm⟩
  have hhead : init.head? = some q := by
    have hne : init ≠ [] := by simpa using h.nonempty
    have hclosed := h.closed
    rwa [getLast?_concat, head?_append_of_ne_nil _ hne] at hclosed
  obtain ⟨rest, rfl⟩ := head?_eq_some_iff.1 hhead
  exact ⟨q, rest, rfl⟩

theorem Loop.exists_transGen (h : Loop R c) :
    ∃ q ∈ c, ∀ x ∈ c, TransGen R x q ∧ TransGen R q x := by
  obtain ⟨q, rest, rfl⟩ := h.exists_eq
  have hpairs : ((q :: rest) ++ [q]).Pairwise (TransGen R) :=
    isChain_iff_pairwise.1 (h.chain.imp fun _ _ => .single)
  have hself : TransGen R q q := rel_of_pairwise_cons hpairs (by simp)
  refine ⟨q, by simp, fun x hx => ?_⟩
  rcases mem_append.1 hx with hx | hx
  · refine ⟨(pairwise_append.1 hpairs).2.2 x hx q (by simp), ?_⟩
    rcases mem_cons.1 hx with rfl | hx
    · exact hself
    · exact rel_of_pairwise_cons hpairs (mem_append_left _ hx)
  · rw [mem_singleton.1 hx]
    exact ⟨hself, hself⟩

theorem Loop.exists_mem (h : Loop R c) : ∃ q, q ∈ c := by
  obtain ⟨q, hq, -⟩ := h.exists_transGen
  exact ⟨q, hq⟩

theorem Loop.exists_next (h : Loop R c) {x : String} (hx : x ∈ c) : ∃ y ∈ c, R x y := by
  obtain ⟨q, rest, rfl⟩ := h.exists_eq
  -- the name at the end stands at the start as well
  have hx : x ∈ q :: rest := by
    rcases mem_append.1 hx with hx | hx
    · exact hx
    · rw [mem_singleton.1 hx]
      exact mem_cons_self
  obtain ⟨before, after, hsplit⟩ := append_of_mem hx
  have hchain := h.chain
  rw [hsplit, append_assoc, cons_append] at hchain
  obtain ⟨y, ys, hys⟩ : ∃ y ys, after ++ [q] = y :: ys := by
    cases after with
    | nil => exact ⟨q, [], rfl⟩
    | cons y ys => exact ⟨y, ys ++ [q], rfl⟩
  have hmem : y ∈ (q :: rest) ++ [q] := by
    rw [hsplit, append_assoc, cons_append, hys]
    simp
  rw [hys] at hchain
  exact ⟨y, hmem, isChain_cons_cons.1 hchain.right_of_append |>.1⟩

section
variable (hR : ∀ x y z, R x y → R x z → y = z)
include hR

/-- **A loop holds just what can be reached from any of its names.** -/
theorem Loop.mem_iff (h : Loop R c) {x y : String} (hx : x ∈ c) : y ∈ c ↔ ReflTransGen R x y := by
  constructor
  · intro hy
    obtain ⟨q, -, hall⟩ := h.exists_transGen
    exact (hall x hx).1.to_reflTransGen.trans (hall y hy).2.to_reflTransGen
  · intro hxy
    induction hxy with
    | refl => exact hx
    | tail _ hstep ih =>
      obtain ⟨z, hz, hnext⟩ := h.exists_next ih
      rwa [hR _ _ _ hstep hnext]

theorem Loop.mem_iff_mem {c' : List String} (h : Loop R c) (h' : Loop R c') {x : String}
    (hx : x ∈ c) (hx' : x ∈ c') (y : String) : y ∈ c ↔ y ∈ c' :=
  (h.mem_iff hR hx).trans (h'.mem_iff hR hx').symm

/-- **Disjoint loops that meet every loop** report each exactly once. -/
theorem Reports.of_disjoint {reports : List (List String)} (hloop : ∀ r ∈ reports, Loop R r)
    (hdisjoint : reports.Pairwise List.Disjoint)
    (hall : ∀ c, Loop R c → ∃ r ∈ reports, ∃ x ∈ c, x ∈ r) : Reports R reports := by
  refine ⟨hloop, fun c hc => ?_⟩
  obtain ⟨r, hr, x, hxc, hxr⟩ := hall c hc
  have hsame : ∀ y, y ∈ r ↔ y ∈ c := (hloop r hr).mem_iff_mem hR hc hxr hxc
  obtain ⟨before, after, rfl⟩ := append_of_mem hr
  refine ⟨before, r, after, rfl, hsame, fun r' hr' y hy hyc => ?_⟩
  obtain ⟨-, hafter, hbefore⟩ := pairwise_append.1 hdisjoint
  rcases mem_append.1 hr' with hr' | hr'
  · exact hbefore r' hr' r mem_cons_self hy ((hsame y).2 hyc)
  · exact (pairwise_cons.1 hafter).1 r' hr' ((hsame y).2 hyc) hy

end

/-! ## Chains that end -/

theorem Reports.not_loop (h : Reports R []) : ¬ Loop R c := by
  intro hc
  obtain ⟨before, r, after, hnil, -⟩ := h.once c hc
  cases before <;> cases hnil

section
variable {keys : List String} (hkeys : ∀ x y, R x y → x ∈ keys) (hloop : ∀ c, ¬ Loop R c)
include hkeys hloop

theorem acc_of_chain {n : Nat} {path : List String} {q : String} (hn : unlisted keys path < n)
    (hnodup : path.Nodup) (hchain : (path ++ [q]).IsChain R) : Acc (fun y x => R x y) q := by
  induction n generalizing path q with
  | zero => omega
  | succ n ih =>
    refine .intro q fun y hy => ?_
    have hnew : q ∉ path := fun hq => hloop _ (Loop.of_chain hnodup hchain hq)
    have hlt : unlisted keys (path ++ [q]) < unlisted keys path :=
      unlisted_lt (subset_append_left _ _) (hkeys q y hy) hnew (by simp)
    exact ih (by omega) (nodup_concat hnodup hnew) (isChain_concat hchain (by simpa using hy))

/-- **Where there are no loops all chains end.** -/
theorem acc_of_not_loop (q : String) : Acc (fun y x => R x y) q :=
  acc_of_chain hkeys hloop (Nat.lt_succ_self (unlisted keys [])) nodup_nil (isChain_singleton q)

end

end MessageSchema
