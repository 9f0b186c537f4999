/-
  Blank characters and trimming.

  A character is blank if it is a tab, a line end, or a space separator of
  Unicode, or the byte order mark; the next-line control U+0085 is none.
-/

namespace MessageSchema.Text

/-- The blank characters as closed ranges of code points, ascending and apart. -/
def blankRanges : List (Nat × Nat) :=
  [(0x09, 0x0D), (0x20, 0x20), (0xA0, 0xA0), (0x1680, 0x1680), (0x2000, 0x200A),
   (0x2028, 0x2029), (0x202F, 0x202F), (0x205F, 0x205F), (0x3000, 0x3000), (0xFEFF, 0xFEFF)]

/-- Whether a character is blank. -/
def isBlank (c : Char) : Bool := blankRanges.any fun r => r.1 ≤ c.toNat && c.toNat ≤ r.2

/-- A line end is one of the four characters that end a line of text. -/
def isLineEnd (c : Char) : Bool := c == '\n' || c == '\r' || c == '\u2028' || c == '\u2029'

/-- A text without the blanks at its end. -/
def trimEnd (s : String) : String := String.ofList (s.toList.reverse.dropWhile isBlank).reverse

/-- A text without the blanks at both ends. -/
def trim (s : String) : String := trimEnd (String.ofList (s.toList.dropWhile isBlank))

/-- A text without its blanks. -/
def squeeze (s : String) : String := String.ofList (s.toList.filter fun c => !isBlank c)

end MessageSchema.Text
