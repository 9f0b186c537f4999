/-
  Lists whose elements are related one by one: what is found in them, and what is made
  of them.

  What is found in one list is found in the other, related in the same way, or neither
  has it: this is `Option.Rel`, taken apart by `rel_cases`.
-/
import Mathlib.Data.List.Forall2
import Mathlib.Data.Option.Basic

namespace MessageSchema

open List Option

variable {α β : Type} {R : α → β → Prop} {xs : List α} {ys : List β} {x : Option α} {y : Option β}

theorem rel_cases (h : Rel R x y) :
    (x = none ∧ y = none) ∨ ∃ a b, x = some a ∧ y = some b ∧ R a b := by
  cases h with
  | none => exact .inl ⟨rfl, rfl⟩
  | some hab => exact .inr ⟨_, _, rfl, rfl, hab⟩

theorem bind_eq_of_rel {γ : Type} (h : Rel R x y) {f : α → Option γ}
    {g : β → Option γ} (hfg : ∀ a b, R a b → f a = g b) : x.bind f = y.bind g := by
  cases h with
  | none => rfl
  | some hab => exact hfg _ _ hab

theorem isEmpty_eq_of_forall₂ (h : Forall₂ R xs ys) : xs.isEmpty = ys.isEmpty := by
  cases h <;> rfl

theorem map_eq_of_forall₂ {γ : Type} {f : α → γ} {g : β → γ}
    (h : Forall₂ (fun x y => f x = g y) xs ys) : xs.map f = ys.map g := by
  induction h with
  | nil => rfl
  | cons hone _ ih => rw [map_cons, map_cons, hone, ih]

theorem forall₂_of_map_eq {γ : Type} {f : α → γ} {g : β → γ} (h : xs.map f = ys.map g) :
    Forall₂ (fun x y => f x = g y) xs ys := by
  rw [← forall₂_eq_eq_eq] at h
  exact forall₂_map_left_iff.1 (forall₂_map_right_iff.1 h)

theorem rel_head? (h : Forall₂ R xs ys) : Rel R xs.head? ys.head? := by
  cases h with
  | nil => exact .none
  | cons hone _ => exact .some hone

theorem rel_getLast? (h : Forall₂ R xs ys) : Rel R xs.getLast? ys.getLast? := by
  rw [getLast?_eq_head?_reverse, getLast?_eq_head?_reverse]
  exact rel_head? (rel_reverse h)

theorem rel_getElem? (h : Forall₂ R xs ys) (i : Nat) : Rel R xs[i]? ys[i]? := by
  induction h generalizing i with
  | nil => exact .none
  | cons hone _ ih =>
    cases i with
    | zero => exact .some hone
    | succ i => exact ih i

theorem forall₂_getElem? (h : Forall₂ R xs ys) {i : Nat} {x : α} {y : β} (hx : xs[i]? = some x)
    (hy : ys[i]? = some y) : R x y := by
  have hrel := rel_getElem? h i
  rw [hx, hy] at hrel
  cases hrel with
  | some hone => exact hone

theorem forall₂_mem (h : Forall₂ R xs ys) : Forall₂ (fun x y => x ∈ xs ∧ y ∈ ys ∧ R x y) xs ys := by
  have hleft := (forall₂_and_left _ _).2 ⟨fun _ hx => hx, h⟩
  have hboth := (forall₂_and_left _ _).2 ⟨fun _ hy => hy, hleft.flip⟩
  exact hboth.flip.imp fun _ _ hxy => ⟨hxy.2.1, hxy.1, hxy.2.2⟩

theorem forall₂_of_getElem? (hlength : xs.length = ys.length)
    (h : ∀ (i : Nat) x, xs[i]? = some x → ∃ y, ys[i]? = some y ∧ R x y) : Forall₂ R xs ys := by
  refine forall₂_iff_get.2 ⟨hlength, fun i hx hy => ?_⟩
  obtain ⟨y, hy', hr⟩ := h i xs[i] (getElem?_eq_getElem hx)
  rw [getElem?_eq_getElem hy] at hy'
  cases hy'
  exact hr

theorem rel_find? (h : Forall₂ R xs ys) {p : α → Bool} {q : β → Bool}
    (hpq : ∀ x y, R x y → p x = q y) : Rel R (xs.find? p) (ys.find? q) := by
  induction h with
  | nil => exact .none
  | @cons x y xs ys hone _ ih =>
    rw [find?_cons, find?_cons, hpq x y hone]
    cases q y with
    | true => exact .some hone
    | false => exact ih

theorem findSome?_eq_of_forall₂ {γ : Type} {f : α → Option γ} {g : β → Option γ}
    (h : Forall₂ (fun x y => f x = g y) xs ys) : xs.findSome? f = ys.findSome? g := by
  induction h with
  | nil => rfl
  | cons hone _ ih => rw [findSome?_cons, findSome?_cons, hone, ih]

theorem perm_flatMap_of_forall₂ {γ : Type} {f : α → List γ} {g : β → List γ}
    (h : Forall₂ (fun x y => (f x).Perm (g y)) xs ys) : (xs.flatMap f).Perm (ys.flatMap g) := by
  induction h with
  | nil => exact .nil
  | cons hone _ ih =>
    rw [flatMap_cons, flatMap_cons]
    exact hone.append ih

theorem forall₂_filterMap {γ : Type} {f : γ → Option α} {g : γ → Option β}
    (h : ∀ c, Rel R (f c) (g c)) (cs : List γ) : Forall₂ R (cs.filterMap f) (cs.filterMap g) := by
  refine rel_filterMap (R := Eq) ?_ (forall₂_same.2 fun _ _ => rfl)
  rintro c _ rfl
  exact h c

theorem forall₂_modify (h : Forall₂ R xs ys) {f : α → α} {g : β → β}
    (hfg : ∀ x y, R x y → R (f x) (g y)) (i : Nat) : Forall₂ R (xs.modify i f) (ys.modify i g) := by
  induction h generalizing i with
  | nil => cases i <;> exact .nil
  | cons hone hrest ih =>
    cases i with
    | zero => exact .cons (hfg _ _ hone) hrest
    | succ i => exact .cons hone (ih i)

theorem forall₂_set (h : Forall₂ R xs ys) {x : α} {y : β} (hxy : R x y) (i : Nat) :
    Forall₂ R (xs.set i x) (ys.set i y) := by
  induction h generalizing i with
  | nil => exact .nil
  | cons hone hrest ih =>
    cases i with
    | zero => exact .cons hxy hrest
    | succ i => exact .cons hone (ih i)

theorem exists_left_of_mem (h : Forall₂ R xs ys) {y : β} (hy : y ∈ ys) : ∃ x ∈ xs, R x y := by
  induction h with
  | nil => cases hy
  | cons hr _ ih =>
    rcases mem_cons.1 hy with rfl | hy
    · exact ⟨_, mem_cons_self, hr⟩
    · obtain ⟨x, hx, hr⟩ := ih hy
      exact ⟨x, mem_cons_of_mem _ hx, hr⟩

theorem exists_right_of_mem (h : Forall₂ R xs ys) {x : α} (hx : x ∈ xs) : ∃ y ∈ ys, R x y := by
  obtain ⟨y, hy, hr⟩ := exists_left_of_mem h.flip hx
  exact ⟨y, hy, hr⟩

end MessageSchema
