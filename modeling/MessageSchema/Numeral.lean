/-
  Numbers written in decimal.
-/

namespace MessageSchema

namespace Numeral

/-- Whether a character is a decimal digit. -/
def isDigit (c : Char) : Bool := '0' ≤ c && c ≤ '9'

/-- The number that a list of digits denotes, most significant first. -/
def value (ds : List Char) : Nat := ds.foldl (fun n c => 10 * n + (c.toNat - '0'.toNat)) 0

/-- Whether there is a minus sign, and what follows it. -/
def splitSign : List Char → Bool × List Char
  | '-' :: s => (true, s)
  | s => (false, s)

/-- The integer denoted by an optional minus sign followed by digits. -/
def integer? (s : String) : Option Int :=
  let (negative, ds) := splitSign s.toList
  if ds.isEmpty || !ds.all isDigit then none
  else some (if negative then -(value ds : Int) else value ds)

/-- The digits at the front of a text and what follows them. -/
def splitDigits (s : List Char) : List Char × List Char :=
  (s.takeWhile isDigit, s.dropWhile isDigit)

/-- Splits a fraction, a dot with digits after it, off the front of a text; the
    digits are empty if there is none. -/
def splitFraction : List Char → List Char × List Char
  | '.' :: s =>
    let (ds, rest) := splitDigits s
    if ds.isEmpty then ([], '.' :: s) else (ds, rest)
  | s => ([], s)

/-- An optional sign in front of an exponent: whether it is a minus, how many
    characters it takes, and what follows it. -/
def splitExponentSign : List Char → Bool × Nat × List Char
  | '-' :: s => (true, 1, s)
  | '+' :: s => (false, 1, s)
  | s => (false, 0, s)

/-- Splits an exponent, `e` or `E` with an optional sign and digits, off the
    front of a text: its sign, the length of its sign, its digits, and the rest;
    the digits are empty if there is none. -/
def splitExponent : List Char → Bool × Nat × List Char × List Char
  | c :: s =>
    if c = 'e' ∨ c = 'E' then
      let (negative, k, t) := splitExponentSign s
      let (ds, rest) := splitDigits t
      if ds.isEmpty then (false, 0, [], c :: s) else (negative, k, ds, rest)
    else (false, 0, [], c :: s)
  | [] => (false, 0, [], [])

/-- The length of the number that a text starts with, `0` if it starts with none. -/
def length (s : List Char) : Nat :=
  let (negative, t) := splitSign s
  let (whole, t) := splitDigits t
  if whole.isEmpty then 0
  else
    let (fraction, t) := splitFraction t
    let (_, k, power, _) := splitExponent t
    (if negative then 1 else 0) + whole.length
      + (if fraction.isEmpty then 0 else 1 + fraction.length)
      + (if power.isEmpty then 0 else 1 + k + power.length)

end Numeral

/-- A decimal number: `digits` times ten to the `exponent`. -/
structure Decimal where
  /-- Whether a minus sign was written; it is kept for zero as well. -/
  negative : Bool
  digits : Nat
  exponent : Int

namespace Decimal

open Numeral

/-- The decimal denoted by digits with an optional minus sign, fraction and
    exponent. -/
def read? (s : String) : Option Decimal :=
  let (negative, t) := splitSign s.toList
  let (whole, t) := splitDigits t
  let (fraction, t) := splitFraction t
  let (below, _, power, t) := splitExponent t
  if whole.isEmpty || !t.isEmpty then none
  else
    let shift : Int := if below then -(value power : Int) else value power
    some ⟨negative, value (whole ++ fraction), shift - fraction.length⟩

/-- The number of decimal digits. -/
def countDigits (n : Nat) : Nat := (Nat.toDigits 10 n).length

/-- The binary64 number nearest to the absolute value of a decimal.  A number
    from `10 ^ 310` up is beyond all finite ones, and one below `10 ^ (-330)`
    is nearer to zero than to the least positive one. -/
def magnitude (d : Decimal) : Float :=
  let top : Int := countDigits d.digits + d.exponent
  if d.digits = 0 ∨ top < -330 then 0
  else if 311 < top then 1 / 0
  else Float.ofScientific d.digits (d.exponent < 0) d.exponent.natAbs

/-- The binary64 number nearest to a decimal, with its sign. -/
def toFloat (d : Decimal) : Float := if d.negative then -d.magnitude else d.magnitude

end Decimal

end MessageSchema
