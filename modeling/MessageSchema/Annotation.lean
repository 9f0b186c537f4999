/-
  Comments and the declarations that they belong to.

  A comment *leads* a declaration if it stands between the token before the
  declaration and its first token, and does not start on the line on which the
  token before ends.  A comment *trails* a declaration if it starts on the line
  on which the declaration ends, after its last token and before the next token
  that is no separator on that line.
-/
import MessageSchema.Text.Blank
import MessageSchema.Token

namespace MessageSchema

/-- What comments say about a declaration: the texts of its documentation, and
    all its comments as written. -/
structure Notes where
  doc : String
  comment : String
  deriving DecidableEq, Repr

/-- No notes. -/
def Notes.none : Notes := ⟨"", ""⟩

/-- The tokens of a text and the comments between them. -/
structure Margins where
  tokens : Array Token
  comments : List Comment

/-- The number of tokens that start before an offset, found by halving the stretch
    from `lo` to `hi` in which it lies; a token that starts there ends the search. -/
def rank (tokens : Array Token) (offset lo hi : Nat) : Nat :=
  if _h : lo < hi then
    let mid := (lo + hi - 1) / 2
    match tokens[mid]? with
    | none => rank tokens offset lo mid
    | some t =>
      if t.first.offset = offset then mid
      else if t.first.offset < offset then rank tokens offset (mid + 1) hi
      else rank tokens offset lo mid
  else lo
termination_by hi - lo

namespace Margins

/-- The index of a token, found by its offset. -/
def index (m : Margins) (t : Token) : Nat := rank m.tokens t.first.offset 0 m.tokens.size

/-- The comments that lead a declaration whose first token is `first`. -/
def leading (m : Margins) (first : Token) : List Comment :=
  let i := m.index first
  let previous := if i = 0 then none else m.tokens[i - 1]?
  m.comments.filter fun c =>
    c.first.offset < first.first.offset &&
      match previous with
      | none => true
      | some p => p.last.offset < c.first.offset && p.last.line < c.first.line

/-- Whether a token only separates or ends declarations. -/
def isSeparator (t : Token) : Bool := t.kind == .comma || t.kind == .semicolon

/-- The index of the first token from `j` on that is no separator on a line. -/
def passSeparators (m : Margins) (line j : Nat) : Nat :=
  if h : j < m.tokens.size then
    if m.tokens[j].first.line = line && isSeparator m.tokens[j] then m.passSeparators line (j + 1)
    else j
  else j
termination_by m.tokens.size - j

/-- The comments that trail a declaration whose last token is `last`. -/
def trailing (m : Margins) (last : Token) : List Comment :=
  let line := last.last.line
  let next := m.tokens[m.passSeparators line (m.index last + 1)]?
  m.comments.filter fun c =>
    last.last.offset < c.first.offset && c.first.line == line &&
      match next with
      | none => true
      | some t => c.first.offset < t.first.offset

/-- The text of a documentation comment, without its slashes and one blank. -/
def docText (c : Comment) : String :=
  let s := c.image.toList.drop 3
  Text.trimEnd (String.ofList (if s.head? = some ' ' then s.drop 1 else s))

/-- The notes of a declaration from token `first` to token `last`.  Trailing
    documentation counts only if there is no leading one. -/
def notes (m : Margins) (first last : Token) : Notes :=
  let before := m.leading first
  let after := m.trailing last
  let docs (cs : List Comment) := cs.filter fun c => c.kind = .doc
  let chosen := if (docs before).isEmpty then docs after else docs before
  ⟨"\n".intercalate (chosen.map docText),
    "\n".intercalate ((before ++ after).map fun c => Text.trim c.image)⟩

end Margins

end MessageSchema
