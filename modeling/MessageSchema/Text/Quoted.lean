/-
  Quoted texts with escapes.

  `decode` reads what stands between the quotes of a quoted text: a backslash
  starts an escape (`\" \\ \/ \b \f \n \r \t`, or `\u` with four hexadecimal
  digits), every other character stands for itself.  A quote, a control
  character and an unknown escape are refused.

  The escape `\u` names a 16-bit unit, so a character beyond the basic plane is
  written as two of them; `joinUnits` puts the halves together.
-/

namespace MessageSchema.Text

/-- The character that a letter stands for after a backslash. -/
def unescape? : Char → Option Char
  | '"' => some '"'
  | '\\' => some '\\'
  | '/' => some '/'
  | 'b' => some '\x08'
  | 'f' => some '\x0c'
  | 'n' => some '\n'
  | 'r' => some '\r'
  | 't' => some '\t'
  | _ => none

/-- The value of a hexadecimal digit. -/
def hexDigit? (c : Char) : Option Nat :=
  if '0' ≤ c ∧ c ≤ '9' then some (c.toNat - '0'.toNat)
  else if 'a' ≤ c ∧ c ≤ 'f' then some (c.toNat - 'a'.toNat + 10)
  else if 'A' ≤ c ∧ c ≤ 'F' then some (c.toNat - 'A'.toNat + 10)
  else none

/-- The 16-bit unit written with four hexadecimal digits. -/
def hexUnit? (a b c d : Char) : Option Nat := do
  return 4096 * (← hexDigit? a) + 256 * (← hexDigit? b) + 16 * (← hexDigit? c) + (← hexDigit? d)

/-- The code points and 16-bit units that a quoted text stands for, given what
    is between its quotes. -/
def codes? : List Char → Option (List Nat)
  | [] => some []
  | '\\' :: 'u' :: a :: b :: c :: d :: s => do
    let unit ← hexUnit? a b c d
    return unit :: (← codes? s)
  | '\\' :: e :: s => do
    let c ← unescape? e
    return c.toNat :: (← codes? s)
  | c :: s =>
    if c = '"' ∨ c = '\\' ∨ c < ' ' then none
    else do return c.toNat :: (← codes? s)

/-- Whether a unit is the first half of a pair. -/
def isHighHalf (n : Nat) : Bool := 0xD800 ≤ n && n < 0xDC00

/-- Whether a unit is the second half of a pair. -/
def isLowHalf (n : Nat) : Bool := 0xDC00 ≤ n && n < 0xE000

/-- The characters of a list of code points and units; a half that stands alone
    becomes the replacement character. -/
def joinUnits : List Nat → List Char
  | [] => []
  | [n] => [if isHighHalf n || isLowHalf n then '\ufffd' else Char.ofNat n]
  | n :: m :: s =>
    if isHighHalf n && isLowHalf m then
      Char.ofNat (0x10000 + (n - 0xD800) * 0x400 + (m - 0xDC00)) :: joinUnits s
    else (if isHighHalf n || isLowHalf n then '\ufffd' else Char.ofNat n) :: joinUnits (m :: s)

/-- The text between the quotes of a quoted text, with its escapes replaced. -/
def decode (s : List Char) : Option (List Char) := (codes? s).map joinUnits

end MessageSchema.Text
