/-
  Numbers of enumeration values.

  A value without a number gets the one after the number before it: one more
  for an enumeration, starting at zero; the next power of two for a set of
  flags, starting at one.  Numbers lie between the least signed and the
  greatest unsigned 64-bit number.
-/
import MessageSchema.Draft
import MessageSchema.Fault

namespace MessageSchema

namespace EnumKind

/-- The least number of a value. -/
def minNumber : Int := -Int.pow 2 63

/-- The greatest number of a value. -/
def maxNumber : Int := Int.pow 2 64 - 1

/-- Whether a number may be given to a value. -/
def inRange (n : Int) : Bool := minNumber ≤ n && n ≤ maxNumber

/-- The flag after a number: the least power of two above it, and at least one. -/
def nextFlag : Option Int → Int
  | none => 1
  | some n => if n < 1 then 1 else Int.pow 2 (n.toNat.log2 + 1)

/-- The number of a value without one, after the number before it. -/
def nextNumber (kind : EnumKind) (previous : Option Int) : Int :=
  match kind, previous with
  | flags, p => nextFlag p
  | _, none => 0
  | _, some n => n + 1

end EnumKind

namespace Draft

/-- The values of a list with their numbers, after a value with number `previous`. -/
def numberFrom (kind : EnumKind) (file home : String) :
    Option Int → List RawValue → Except Fault (List EnumValue)
  | _, [] => .ok []
  | previous, v :: vs => do
    let n := v.number.getD (kind.nextNumber previous)
    if EnumKind.inRange n then
      let rest ← numberFrom kind file home (some n) vs
      return ⟨v.name, n, v.number.isSome, ⟨v.toNotes, file, v.line, home⟩⟩ :: rest
    else
      throw { cause := .numberTooWide n v.name, file, line := v.line, token := some v.name }

/-- Numbers the values of an enumeration. -/
def number (kind : EnumKind) (file home : String) (vs : List RawValue) :
    Except Fault (List EnumValue) :=
  numberFrom kind file home none vs

end Draft

end MessageSchema
