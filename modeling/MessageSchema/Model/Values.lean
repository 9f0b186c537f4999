/-
  Values of enumerations: inheritance and width.
-/
import MessageSchema.Draft.Numbering
import MessageSchema.Model

namespace MessageSchema.Model

/-- The width in bits that holds the magnitude of every number, and at least 32 if
    `wide`. -/
def storageWidth (wide : Bool) (numbers : List Int) : Nat :=
  let top := numbers.foldl (fun m n => max m n.natAbs) 0
  let width :=
    if top < Nat.pow 2 8 then 8 else if top < Nat.pow 2 16 then 16
    else if top < Nat.pow 2 32 then 32 else 64
  if wide then max width 32 else width

/-- The values of an enumeration with those that it inherits. -/
structure Merged where
  values : List EnumValue := []
  /-- own values whose name is taken, and whether an inherited value took it -/
  duplicates : List (Draft.EnumValue × Bool) := []
  /-- own values whose number is beyond 64 bits -/
  overflows : List Draft.EnumValue := []

/-- Adds own values one by one.  `taken` are the names of inherited values, `used`
    those of own ones, `previous` is the number of the value before. -/
def mergeFrom (renumber : Bool) (taken : List String) :
    List String → Option Int → List Draft.EnumValue → Merged
  | _, _, [] => {}
  | used, previous, v :: vs =>
    if taken.contains v.name || used.contains v.name then
      let rest := mergeFrom renumber taken used previous vs
      { rest with duplicates := (v, taken.contains v.name) :: rest.duplicates }
    else
      let n := if v.explicit || !renumber then v.number else EnumKind.closed.nextNumber previous
      let used := v.name :: used
      if EnumKind.inRange n then
        let rest := mergeFrom renumber taken used (some n) vs
        { rest with values := ⟨v.name, n, false, v.origin⟩ :: rest.values }
      else
        let rest := mergeFrom renumber taken used previous vs
        { rest with overflows := v :: rest.overflows }

/-- The inherited values, then the own ones.  If `renumber`, own values without a
    written number count on from the value before them; otherwise they keep the
    numbers that they have. -/
def mergeValues (renumber : Bool) (inherited : List EnumValue) (own : List Draft.EnumValue) :
    Merged :=
  let rest := mergeFrom renumber (inherited.map (·.name)) [] (inherited.getLast?.map (·.number)) own
  { rest with values := (inherited.map fun v => { v with inherited := true }) ++ rest.values }

end MessageSchema.Model
