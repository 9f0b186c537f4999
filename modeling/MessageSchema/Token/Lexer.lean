/-
  From texts to lexemes.

  A text is cut into *pieces* from left to right: blanks, line ends, comments,
  tokens, and stray runs, which are the longest runs of characters at which no
  other piece starts.  `recognize` finds the piece that a text starts with.
-/
import MessageSchema.Numeral
import MessageSchema.Text.Blank
import MessageSchema.Text.Units
import MessageSchema.Token

namespace MessageSchema

/-- What a piece of a text is. -/
inductive Shape where
  | blank
  | lineEnd
  | comment (kind : CommentKind)
  | token (kind : Kind)
  | stray
  deriving DecidableEq, Repr

/-- A piece of a text and the place of its first character. -/
structure Piece where
  shape : Shape
  image : List Char
  first : Position
  deriving DecidableEq, Repr

namespace Lexer

/-! ## Recognizing the first piece -/

/-- Whether a character is a gap within a line. -/
def isGap (c : Char) : Bool := c == ' ' || c == '\t' || c == '\x0c'

/-- Whether a character may start a name. -/
def isNameStart (c : Char) : Bool := ('a' ≤ c && c ≤ 'z') || ('A' ≤ c && c ≤ 'Z') || c == '_'

/-- Whether a character may stand in a name. -/
def isNameChar (c : Char) : Bool := isNameStart c || Numeral.isDigit c

/-- Characters that a comment may hold up to the end of its line. -/
def isLineChar (c : Char) : Bool := c != '\n' && c != '\r'

/-- The length of a quoted text after its opening quote, closing quote included;
    `none` if it is not closed.  A backslash takes the next character with it,
    which may be no line end. -/
def quotedLength : List Char → Option Nat
  | [] => none
  | '\\' :: c :: s => if Text.isLineEnd c then none else (quotedLength s).map (· + 2)
  | c :: s =>
    if c = '"' then some 1
    else if c = '\\' ∨ !isLineChar c then none
    else (quotedLength s).map (· + 1)

/-- The length of a text up to and with the first star that a slash follows;
    `none` if there is none. -/
def blockLength : List Char → Option Nat
  | [] => none
  | '*' :: '/' :: _ => some 2
  | _ :: s => (blockLength s).map (· + 1)

/-- The token that a character is on its own. -/
def punctuation? : Char → Option Kind
  | ':' => some .colon
  | ';' => some .semicolon
  | ',' => some .comma
  | '.' => some .dot
  | '|' => some .bar
  | '=' => some .equals
  | '{' => some .leftBrace
  | '}' => some .rightBrace
  | '[' => some .leftBracket
  | ']' => some .rightBracket
  | '<' => some .leftAngle
  | '>' => some .rightAngle
  | _ => none

/-- The kind of a word: a keyword or an identifier. -/
def wordKind (w : String) : Kind :=
  match Keyword.ofWord? w with
  | some k => .keyword k
  | none => .identifier

/-- A quoted text, a number or a word at the front of a text. -/
def recognizeWord (c : Char) (s : List Char) : Option (Shape × Nat) :=
  if c = '"' then (quotedLength s).map fun n => (.token .text, n + 1)
  else if 0 < Numeral.length (c :: s) then some (.token .number, Numeral.length (c :: s))
  else if isNameStart c then
    let tail := s.takeWhile isNameChar
    some (.token (wordKind (String.ofList (c :: tail))), tail.length + 1)
  else none

/-- The piece that a text starts with: its shape and its number of characters;
    `none` if the first character starts no piece. -/
def recognize : List Char → Option (Shape × Nat)
  | [] => none
  | '\n' :: _ => some (.lineEnd, 1)
  | '\r' :: '\n' :: _ => some (.lineEnd, 2)
  | '/' :: '/' :: '/' :: s => some (.comment .doc, (s.takeWhile isLineChar).length + 3)
  | '/' :: '/' :: s => some (.comment .line, (s.takeWhile isLineChar).length + 2)
  | '/' :: '*' :: s => (blockLength s).map fun n => (.comment .block, n + 2)
  | ':' :: ':' :: _ => some (.token .colons, 2)
  | c :: s =>
    if isGap c then some (.blank, (s.takeWhile isGap).length + 1)
    else match punctuation? c with
      | some k => some (.token k, 1)
      | none => recognizeWord c s

/-- The number of characters up to the first one that starts a piece. -/
def strayLength : List Char → Nat
  | [] => 0
  | c :: s => if (recognize (c :: s)).isSome then 0 else strayLength s + 1

/-! ## Places -/

/-- The place after a character inside a piece that may span lines; a carriage
    return before a line feed leaves the end of the line to the line feed. -/
def stepLine (p : Position) (c : Char) (next : Option Char) : Position :=
  let p' := { p with offset := p.offset + Text.unitsOf c, column := p.column + Text.unitsOf c }
  if c = '\n' ∨ (c = '\r' ∧ next ≠ some '\n') then { p' with line := p.line + 1, column := 1 }
  else p'

/-- The place after characters that may end lines. -/
def afterLines (p : Position) : List Char → Position
  | [] => p
  | c :: s => afterLines (stepLine p c s.head?) s

/-- The place after characters of one line. -/
def afterRun (p : Position) (s : List Char) : Position :=
  { p with offset := p.offset + Text.units s, column := p.column + Text.units s }

/-- The place after a piece.  Only line ends and block comments lead to another
    line. -/
def after (p : Position) (shape : Shape) (s : List Char) : Position :=
  match shape with
  | .lineEnd | .comment .block => afterLines p s
  | _ => afterRun p s

/-- The place of the last unit of a piece that ends on the line before `p`. -/
def lastOf (p : Position) : Position := { p with offset := p.offset - 1, column := p.column - 1 }

/-! ## Cutting a text into pieces -/

/-- The first piece of a text that starts with `c`, with the number of characters
    after `c` that belong to it. -/
def firstPiece (p : Position) (c : Char) (s : List Char) : Piece × Nat :=
  match recognize (c :: s) with
  | some (shape, n) => (⟨shape, c :: s.take (n - 1), p⟩, n - 1)
  | none => (⟨.stray, c :: s.take (strayLength s), p⟩, strayLength s)

/-- The pieces of a text that starts at `p`, after the first `skip` characters,
    which belong to a piece already found. -/
def piecesFrom (p : Position) : Nat → List Char → List Piece
  | _, [] => []
  | skip + 1, _ :: s => piecesFrom p skip s
  | 0, c :: s =>
    let (piece, n) := firstPiece p c s
    piece :: piecesFrom (after p piece.shape piece.image) n s

/-- Cuts a text into pieces. -/
def pieces (s : List Char) : List Piece := piecesFrom .origin 0 s

theorem firstPiece_image (p : Position) (c : Char) (s : List Char) :
    (firstPiece p c s).1.image = c :: s.take (firstPiece p c s).2 := by
  unfold firstPiece
  split <;> rfl

theorem flatMap_image_piecesFrom (p : Position) (skip : Nat) (s : List Char) :
    (piecesFrom p skip s).flatMap (·.image) = s.drop skip := by
  induction s generalizing p skip with
  | nil => simp [piecesFrom]
  | cons c s ih =>
    cases skip with
    | succ skip => rw [piecesFrom, ih, List.drop_succ_cons]
    | zero =>
      rw [piecesFrom, List.flatMap_cons, ih, firstPiece_image, List.cons_append,
        List.take_append_drop, List.drop_zero]

theorem flatMap_image_pieces (s : List Char) : (pieces s).flatMap (·.image) = s :=
  flatMap_image_piecesFrom .origin 0 s

theorem image_ne_nil_of_mem {p : Position} {skip : Nat} {s : List Char} {piece : Piece}
    (h : piece ∈ piecesFrom p skip s) : piece.image ≠ [] := by
  induction s generalizing p skip with
  | nil => simp [piecesFrom] at h
  | cons c s ih =>
    cases skip with
    | succ skip => exact ih h
    | zero =>
      simp only [piecesFrom, List.mem_cons] at h
      rcases h with h | h
      · rw [h, firstPiece_image]; exact List.cons_ne_nil _ _
      · exact ih h

theorem image_ne_nil {s : List Char} {piece : Piece} (h : piece ∈ pieces s) : piece.image ≠ [] :=
  image_ne_nil_of_mem h

end Lexer

/-- A piece as a lexeme of a kind. -/
def Piece.lexeme {κ : Type} (piece : Piece) (kind : κ) : Lexeme κ :=
  ⟨kind, String.ofList piece.image, piece.first,
    Lexer.lastOf (Lexer.after piece.first piece.shape piece.image)⟩

/-- The token that a piece is. -/
def Piece.token? (piece : Piece) : Option Token :=
  match piece.shape with
  | .token k => some (piece.lexeme k)
  | _ => none

/-- The comment that a piece is. -/
def Piece.comment? (piece : Piece) : Option Comment :=
  match piece.shape with
  | .comment k => some (piece.lexeme k)
  | _ => none

/-- The stray characters that a piece is. -/
def Piece.stray? (piece : Piece) : Option Stray :=
  match piece.shape with
  | .stray => some ⟨String.ofList piece.image, piece.first⟩
  | _ => none

/-- What is found in a text. -/
structure Scan where
  tokens : List Token
  comments : List Comment
  strays : List Stray
  deriving DecidableEq, Repr

/-- Scans a text. -/
def Scan.ofText (text : String) : Scan :=
  let ps := Lexer.pieces text.toList
  ⟨ps.filterMap Piece.token?, ps.filterMap Piece.comment?, ps.filterMap Piece.stray?⟩

end MessageSchema
