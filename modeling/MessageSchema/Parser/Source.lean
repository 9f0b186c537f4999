/-
  Reading schema texts.
-/
import MessageSchema.Parser.Machine
import MessageSchema.Token.Lexer

namespace MessageSchema

/-- A text that has been read: its lexemes and its syntax tree. -/
structure Source where
  file : String
  text : String
  tokens : List Token
  comments : List Comment
  tree : Tree

namespace Source

/-- The name of a text that is no file. -/
def unnamed : String := "<input>"

/-- The line on which the last token ends. -/
def lastLine (tokens : List Token) : Nat := (tokens.getLast?.map (·.last.line)).getD 1

/-- The fault of characters that start no lexeme. -/
def strayFault (file : String) (s : Stray) : Fault :=
  { cause := .strayText s.image, file, line := s.first.line, column := s.first.column,
    token := some s.image }

/-- The cause of a complaint. -/
def complaintCause (c : Complaint) : Cause :=
  .unexpected c.expectation ((c.token.map (·.image)).getD "")

/-- The fault of a complaint.  At the end of the text it is put on the last line,
    without a column. -/
def complaintFault (file : String) (tokens : List Token) (c : Complaint) : Fault :=
  match c.token with
  | some t =>
    { cause := complaintCause c, file, line := t.first.line, column := t.first.column,
      token := some t.image }
  | none => { cause := complaintCause c, file, line := lastLine tokens }

/-- Reads a text: it is cut into tokens, and these are parsed. -/
def read (file text : String) : Except Fault Source :=
  let scan := Scan.ofText text
  match scan.strays with
  | s :: _ => .error (strayFault file s)
  | [] =>
    let m := Machine.parse .strict scan.tokens
    match m.complaints, m.tree with
    | [], some tree => .ok ⟨file, text, scan.tokens, scan.comments, tree⟩
    | c :: _, _ => .error (complaintFault file scan.tokens c)
    | [], none => .error (complaintFault file scan.tokens ⟨.nothing, none⟩)

/-! ## Reading for an editor -/

/-- The diagnostic of a stray run: exactly its characters. -/
def strayDiagnostic (file : String) (s : Stray) : Diagnostic :=
  let line := s.first.line - 1
  let character := s.first.column - 1
  ⟨.strayText s.image, file, ⟨some line, some character⟩,
    ⟨some line, some (character + Text.width s.image)⟩⟩

/-- The diagnostic of a complaint: its token, or, at the end of the text, an open
    place on the last line. -/
def complaintDiagnostic (file : String) (tokens : List Token) (c : Complaint) : Diagnostic :=
  let range : Range := match c.token with
    | some t =>
      ⟨⟨some (t.first.line - 1), some (t.first.column - 1)⟩,
        ⟨some (t.last.line - 1), some t.last.column⟩⟩
    | none => ⟨⟨some (lastLine tokens - 1), none⟩, ⟨none, none⟩⟩
  ⟨complaintCause c, file, range⟩

/-- Reads a text and lists all its faults; there is a tree only if there are none. -/
def check (file text : String) : Option Source × List Diagnostic :=
  let scan := Scan.ofText text
  let m := Machine.parse .recovering scan.tokens
  let ds := scan.strays.map (strayDiagnostic file)
    ++ m.complaints.map (complaintDiagnostic file scan.tokens)
  let source := m.tree.map fun tree => ⟨file, text, scan.tokens, scan.comments, tree⟩
  (if ds.isEmpty then source else none, ds)

end Source

end MessageSchema
