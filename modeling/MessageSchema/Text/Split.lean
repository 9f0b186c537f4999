/-
  Cutting a text at its separators.

  `split cut s` cuts `s` at every separator, scanning from the left: `cut`
  tells the length of the separator that a text starts with, `0` if it starts
  with none.  The parts are those between the separators, so there is one part
  more than separators.
-/

namespace MessageSchema.Text

/-- The parts of a text, where `skip` characters of a separator are still to be
    passed over and `part` holds, reversed, what the current part has so far. -/
def splitFrom (cut : List Char → Nat) : Nat → List Char → List Char → List (List Char)
  | _, part, [] => [part.reverse]
  | skip + 1, part, _ :: s => splitFrom cut skip part s
  | 0, part, c :: s =>
    match cut (c :: s) with
    | 0 => splitFrom cut 0 (c :: part) s
    | n + 1 => part.reverse :: splitFrom cut n [] s

/-- Splits a text wherever `cut` finds a separator of some length. -/
def split (cut : List Char → Nat) (s : String) : List String :=
  (splitFrom cut 0 [] s.toList).map String.ofList

/-- Separators that are the character `d`. -/
def atChar (d : Char) : List Char → Nat
  | c :: _ => if c = d then 1 else 0
  | [] => 0

/-- Separators that are two colons. -/
def atColons : List Char → Nat
  | ':' :: ':' :: _ => 2
  | _ => 0

/-- Separators that are two colons or a dot. -/
def atColonsOrDot : List Char → Nat
  | '.' :: _ => 1
  | s => atColons s

theorem splitFrom_ne_nil (cut : List Char → Nat) (skip : Nat) (part s : List Char) :
    splitFrom cut skip part s ≠ [] := by
  induction s generalizing skip part with
  | nil => cases skip <;> simp [splitFrom]
  | cons c s ih =>
    cases skip with
    | succ k => exact ih k part
    | zero =>
      rw [splitFrom]
      split
      · exact ih _ _
      · simp

end MessageSchema.Text
