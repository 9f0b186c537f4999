/-
  Lengths of texts in 16-bit units.

  Offsets, columns and widths count the units a text takes in a 16-bit
  encoding: one for a character of the basic plane, two for any other.

  * `units_append`: the length of a text is the sum of the lengths of its parts.
-/

namespace MessageSchema.Text

/-- The number of UTF-16 units of a character. -/
def unitsOf (c : Char) : Nat := if c.toNat < 0x10000 then 1 else 2

/-- The number of UTF-16 units of characters. -/
def units : List Char → Nat
  | [] => 0
  | c :: s => unitsOf c + units s

/-- The number of UTF-16 units of a text. -/
def width (s : String) : Nat := units s.toList

@[simp] theorem units_nil : units [] = 0 := rfl

@[simp] theorem units_cons (c : Char) (s : List Char) : units (c :: s) = unitsOf c + units s := rfl

@[simp] theorem units_append (s t : List Char) : units (s ++ t) = units s + units t := by
  induction s with
  | nil => simp
  | cons c s ih => simp [ih, Nat.add_assoc]

theorem unitsOf_pos (c : Char) : 0 < unitsOf c := by
  unfold unitsOf; split <;> decide

/-- What is left of a text after the first `n` units, a character that the cut
    would split being dropped as well. -/
def dropUnits : Nat → List Char → List Char
  | _, [] => []
  | 0, c :: s => c :: s
  | n + 1, c :: s => dropUnits (n + 1 - unitsOf c) s

/-- The characters of a text that fit into the first `n` units. -/
def takeUnits : Nat → List Char → List Char
  | _, [] => []
  | n, c :: s => if unitsOf c ≤ n then c :: takeUnits (n - unitsOf c) s else []

/-- The characters from offset `start` up to, and without, offset `stop`. -/
def slice (start stop : Nat) (s : List Char) : List Char :=
  takeUnits (stop - start) (dropUnits start s)

theorem takeUnits_append (s t : List Char) : takeUnits (units s) (s ++ t) = s := by
  induction s with
  | nil =>
    cases t with
    | nil => rfl
    | cons c t =>
      have := unitsOf_pos c
      simp [takeUnits]; omega
  | cons c s ih => simp [takeUnits, ih]

theorem dropUnits_append (s t : List Char) : dropUnits (units s) (s ++ t) = t := by
  induction s with
  | nil => cases t <;> rfl
  | cons c s ih =>
    obtain ⟨n, hn⟩ : ∃ n, unitsOf c + units s = n + 1 :=
      ⟨unitsOf c + units s - 1, by have := unitsOf_pos c; omega⟩
    simp only [List.cons_append, units_cons, hn, dropUnits]
    rw [← hn, Nat.add_sub_cancel_left, ih]

/-- Cutting a text at the offsets of a part gives that part. -/
theorem slice_append (r s t : List Char) :
    slice (units r) (units r + units s) (r ++ (s ++ t)) = s := by
  simp only [slice, dropUnits_append, Nat.add_sub_cancel_left, takeUnits_append]

end MessageSchema.Text
