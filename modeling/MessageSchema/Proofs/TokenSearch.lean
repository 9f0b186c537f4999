/-
  Finding the neighbours of a token.

  Tokens stand in the order of their offsets, so the place of a token among them is the
  number of those that start before it.

  * `Margins.leading_eq`, `Margins.trailing_eq`: hence comments are compared with the token
    before and the tokens after a declaration.
-/
import MessageSchema.Annotation
import Mathlib.Data.List.TakeWhile

namespace MessageSchema

open List

/-- **The search ends at the place of an offset**: behind all tokens that start before it, and
    at the token that starts there. -/
theorem rank_eq {tokens : Array Token} {offset i lo hi : Nat}
    (hsorted : ∀ j (u : Token), tokens[j]? = some u → (u.first.offset < offset ↔ j < i))
    (hfound : ∀ j (u : Token), tokens[j]? = some u → u.first.offset = offset → j = i)
    (hlo : lo ≤ i) (hi' : i ≤ hi) (hsize : hi ≤ tokens.size) : rank tokens offset lo hi = i := by
  fun_induction rank tokens offset lo hi with
  | case1 lo hi hlt mid hmid _ =>
    rw [Array.getElem?_eq_none_iff] at hmid
    omega
  | case2 lo hi hlt mid u hu heq => exact hfound mid u hu heq
  | case3 lo hi hlt mid u hu _ hbefore ih => exact ih ((hsorted mid u hu).1 hbefore) hi' hsize
  | case4 lo hi hlt mid u hu _ hbefore ih =>
    have hle : i ≤ mid := Nat.not_lt.1 fun h => hbefore ((hsorted mid u hu).2 h)
    exact ih hlo hle (by omega)
  | case5 lo hi hlt => omega

namespace Margins

/-- Tokens in the order of their offsets. -/
def Ordered (tokens : List Token) : Prop :=
  tokens.Pairwise fun a b => a.first.offset < b.first.offset

variable {tokens : List Token} {t : Token} {j : Nat} {m : Margins}

/-- The tokens that start before an offset stand before all others. -/
theorem Ordered.before_iff (h : Ordered tokens) (offset : Nat) {u : Token}
    (hu : tokens[j]? = some u) :
    u.first.offset < offset ↔ j < tokens.countP (·.first.offset < offset) := by
  induction tokens generalizing j with
  | nil => cases hu
  | cons t ts ih =>
    obtain ⟨ht, hts⟩ := pairwise_cons.1 h
    rw [countP_cons]
    by_cases hlt : t.first.offset < offset
    · cases j with
      | zero =>
        cases hu
        simp [hlt]
      | succ j => simp [hlt, ih hts hu]
    · have hle : ∀ v ∈ t :: ts, ¬ v.first.offset < offset :=
        forall_mem_cons.2 ⟨hlt, fun v hv hv' => hlt ((ht v hv).trans hv')⟩
      have hnone : ts.countP (·.first.offset < offset) = 0 :=
        countP_eq_zero.2 fun v hv => by simpa using hle v (mem_cons_of_mem _ hv)
      simp [hlt, hnone, hle u (mem_of_getElem? hu)]

theorem Ordered.eq_countP (h : Ordered tokens) (ht : tokens[j]? = some t) :
    j = tokens.countP (·.first.offset < t.first.offset) := by
  refine Nat.le_antisymm (Nat.not_lt.1 fun hlt => ?_) (Nat.not_lt.1 fun hlt => ?_)
  -- a token between the earlier ones and this one would start before it
  · obtain ⟨hj, rfl⟩ := List.getElem?_eq_some_iff.1 ht
    have hget := getElem?_eq_getElem (hlt.trans hj)
    exact Nat.lt_irrefl _
      ((h.before_iff _ hget).1 (pairwise_iff_getElem.1 h _ j (hlt.trans hj) hj hlt))
  · exact Nat.lt_irrefl _ ((h.before_iff _ ht).2 hlt)

theorem Ordered.index_eq_countP (h : Ordered tokens) (comments : List Comment) (t : Token) :
    (Margins.mk tokens.toArray comments).index t =
      tokens.countP (·.first.offset < t.first.offset) := by
  refine rank_eq (fun j u hu => h.before_iff _ (by simpa using hu)) (fun j u hu heq => ?_)
    (Nat.zero_le _) (by simpa using countP_le_length) (Nat.le_refl _)
  rw [← heq]
  exact h.eq_countP (by simpa using hu)

theorem index_eq (h : Ordered tokens) (comments : List Comment) {i : Nat}
    (ht : tokens[i]? = some t) : (Margins.mk tokens.toArray comments).index t = i :=
  (h.index_eq_countP comments t).trans (h.eq_countP ht).symm

theorem passSeparators_of_some (ht : m.tokens[j]? = some t) (line : Nat) :
    m.passSeparators line j =
      if t.first.line = line && isSeparator t then m.passSeparators line (j + 1) else j := by
  obtain ⟨hlt, rfl⟩ := Array.getElem?_eq_some_iff.1 ht
  rw [passSeparators, dif_pos hlt]

theorem passSeparators_of_none (h : m.tokens[j]? = none) (line : Nat) :
    m.passSeparators line j = j := by
  rw [passSeparators, dif_neg (Nat.not_lt.2 (Array.getElem?_eq_none_iff.1 h))]

theorem getElem?_passSeparators (comments : List Comment) (line : Nat) (before after : List Token) :
    (before ++ after)[(Margins.mk (before ++ after).toArray comments).passSeparators line
      before.length]? =
      (after.dropWhile fun t => t.first.line = line && isSeparator t).head? := by
  induction after generalizing before with
  | nil => simp [passSeparators_of_none]
  | cons t after ih =>
    rw [passSeparators_of_some (t := t) (by simp), dropWhile_cons]
    split
    · have hnext := ih (before ++ [t])
      rwa [append_assoc, singleton_append, length_append] at hnext
    · simp

section

variable {before after : List Token} (h : Ordered (before ++ t :: after)) (comments : List Comment)
include h

theorem leading_eq : (Margins.mk (before ++ t :: after).toArray comments).leading t =
    comments.filter fun c => c.first.offset < t.first.offset &&
      before.getLast?.all fun p => p.last.offset < c.first.offset && p.last.line <
        c.first.line := by
  rw [leading, index_eq h comments (i := before.length) (by simp)]
  refine filter_congr fun c _ => ?_
  rcases eq_nil_or_concat before with rfl | ⟨init, p, rfl⟩
  · simp
  · simp

theorem trailing_eq : (Margins.mk (before ++ t :: after).toArray comments).trailing t =
    comments.filter fun c => t.last.offset < c.first.offset && c.first.line == t.last.line &&
      (after.dropWhile fun u => u.first.line = t.last.line && isSeparator u).head?.all
        fun n => c.first.offset < n.first.offset := by
  have hnext := getElem?_passSeparators comments t.last.line (before ++ [t]) after
  simp only [append_assoc, singleton_append, length_append, length_singleton] at hnext
  rw [trailing, index_eq h comments (i := before.length) (by simp)]
  simp only [getElem?_toArray, hnext]
  refine filter_congr fun c _ => ?_
  cases (after.dropWhile fun u => u.first.line = t.last.line && isSeparator u).head? <;> rfl

end

/-- **Tokens are found where they stand.**  Among tokens in the order of their offsets, the search
    for any token gives the number of those that start before it, for one of them the number of
    those before it; so leading comments are compared with the token right before it, and trailing
    ones with the first after it that is no separator on its line. -/
theorem finds_neighbours (h : Ordered tokens) (comments : List Comment) (t : Token) :
    (Margins.mk tokens.toArray comments).index t = tokens.countP (·.first.offset < t.first.offset) ∧
    ∀ before after, tokens = before ++ t :: after →
      (Margins.mk tokens.toArray comments).index t = before.length ∧
      (Margins.mk tokens.toArray comments).leading t =
        (comments.filter fun c => c.first.offset < t.first.offset &&
        before.getLast?.all fun p => p.last.offset < c.first.offset && p.last.line < c.first.line) ∧
      (Margins.mk tokens.toArray comments).trailing t = comments.filter fun c =>
        t.last.offset < c.first.offset && c.first.line == t.last.line &&
          (after.dropWhile fun u => u.first.line = t.last.line && isSeparator u).head?.all
            fun n => c.first.offset < n.first.offset := by
  refine ⟨h.index_eq_countP comments t, ?_⟩
  rintro before after rfl
  exact ⟨index_eq h comments (by simp), leading_eq h comments, trailing_eq h comments⟩

/-- A token of one character on the first line. -/
def single (kind : Kind) (image : String) (offset : Nat) : Token :=
  ⟨kind, image, ⟨offset, 1, offset + 1⟩, ⟨offset, 1, offset + 1⟩⟩

theorem finds_neighbours_separated :
    let tokens := [single .identifier "a" 0, single .comma "," 1, single .identifier "b" 9]
    let comment : Comment := ⟨.line, "//", ⟨4, 1, 5⟩, ⟨5, 1, 6⟩⟩
    Ordered tokens ∧ (Margins.mk tokens.toArray [comment]).trailing (single .identifier "a" 0) =
    [comment] ∧
      (Margins.mk tokens.toArray [comment]).index (single .identifier "b" 9) = 2 ∧
      (Margins.mk tokens.toArray [comment]).index (single .identifier "c" 5) = 2 := by
  intro tokens comment
  have hordered : Ordered tokens := by simp [tokens, Ordered, single]
  refine ⟨hordered, ?_, ?_, (finds_neighbours hordered [comment] _).1⟩
  · exact ((finds_neighbours hordered [comment] _).2 [] _ rfl).2.2
  · exact ((finds_neighbours hordered [comment] _).2 [_, _] [] rfl).1

end Margins

end MessageSchema
