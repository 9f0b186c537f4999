/-
  The ranges of diagnostics.

  A diagnostic is about what is found in the text: a stray run, or a token that the
  grammar does not allow.  Its range has just these characters.  At the end of the text
  nothing is found, and there only the line is known on which the range starts.
-/
import MessageSchema.Proofs.Lines

namespace MessageSchema

open Lexer List

/-- A range whose four numbers are known, and that does not end before it starts. -/
def Range.WellFormed (r : Range) : Prop :=
  ∃ line character line' character', r =
    ⟨⟨some line, some character⟩, ⟨some line', some character'⟩⟩ ∧
    (line < line' ∨ line = line' ∧ character ≤ character')

/-- A range that has the characters of a piece, counted from zero on its line. -/
def Range.Covers (r : Range) (x : Piece) : Prop :=
  ∃ line character, x.first.line = line + 1 ∧ x.first.column = character + 1 ∧
    r = ⟨⟨some line, some character⟩, ⟨some line, some (character + Text.units x.image)⟩⟩

/-- What is found where a diagnostic is, empty at the end of the text. -/
def Diagnostic.found (d : Diagnostic) : String :=
  match d.cause with
  | .strayText found | .unexpected _ found => found
  | _ => ""

theorem Range.Covers.wellFormed {r : Range} {x : Piece} (h : r.Covers x) : r.WellFormed := by
  obtain ⟨line, character, -, -, rfl⟩ := h
  exact ⟨line, character, line, _, rfl, .inr ⟨rfl, Nat.le_add_right _ _⟩⟩

namespace Lexer

variable {p : Position} {x : Piece}

theorem column_afterLines_pos (h : 0 < p.column) (s : List Char) : 0 < (afterLines p s).column := by
  induction s generalizing p with
  | nil => exact h
  | cons c s ih =>
    refine ih ?_
    unfold stepLine
    dsimp only
    split
    · exact Nat.one_pos
    · exact Nat.add_pos_left h _

theorem column_after_pos (h : 0 < p.column) (shape : Shape) (s : List Char) :
    0 < (after p shape s).column := by
  unfold after
  split
  · exact column_afterLines_pos h s
  · exact column_afterLines_pos h s
  · exact Nat.add_pos_left h _

theorem column_pos_of_laid {ps : List Piece} (h : Laid p ps) (hp : 0 < p.column)
    (hx : x ∈ ps) : 0 < x.first.column := by
  induction ps generalizing p with
  | nil => cases hx
  | cons y ps ih =>
    have hy : 0 < y.first.column := h.1 ▸ hp
    rcases mem_cons.1 hx with rfl | hx
    · exact hy
    · exact ih h.2 (column_after_pos hy _ _) hx

/-- **Pieces have lines and columns from one on.** -/
theorem exists_place {text : String} (h : x ∈ pieces text.toList) :
    ∃ line character, x.first.line = line + 1 ∧ x.first.column = character + 1 := by
  obtain ⟨hline, -⟩ := hasLine_of_mem_pieces h
  have hcolumn := column_pos_of_laid (laid_piecesFrom .origin _) Nat.one_pos h
  exact ⟨x.first.line - 1, x.first.column - 1, by omega, by omega⟩

end Lexer

namespace Source

variable {file text : String} {x : Piece} (hx : x ∈ pieces text.toList)
include hx

theorem covers_strayDiagnostic {s : Stray} (hs : x.stray? = some s) :
    String.ofList x.image = (strayDiagnostic file s).found ∧
      (strayDiagnostic file s).range.Covers x := by
  obtain ⟨line, character, hline, hcolumn⟩ := exists_place hx
  unfold Piece.stray? at hs
  split at hs
  · cases hs
    refine ⟨rfl, line, character, hline, hcolumn, ?_⟩
    simp [strayDiagnostic, hline, hcolumn, Text.width]
  · cases hs

theorem covers_complaintDiagnostic {c : Complaint} {t : Token} (hc : c.token = some t)
    (ht : x.token? = some t) :
    String.ofList x.image = (complaintDiagnostic file (Scan.ofText text).tokens c).found ∧
      (complaintDiagnostic file (Scan.ofText text).tokens c).range.Covers x := by
  obtain ⟨line, character, hline, hcolumn⟩ := exists_place hx
  unfold Piece.token? at ht
  split at ht
  · next k hshape =>
    cases ht
    refine ⟨by rw [Diagnostic.found, complaintDiagnostic, complaintCause, hc]; rfl, line, character,
      hline, hcolumn, ?_⟩
    -- the last unit of a token is on its line, one before the place after it
    have hlast : lastOf (after x.first x.shape x.image) =
        ⟨x.first.offset + Text.units x.image - 1, line + 1, character + Text.units x.image⟩ := by
      rw [show after x.first x.shape x.image = afterRun x.first x.image by rw [hshape]; rfl,
        afterRun, lastOf, hline, hcolumn]
      simp only [Position.mk.injEq, true_and]
      omega
    simp [complaintDiagnostic, hc, Piece.lexeme, hlast, hline, hcolumn]
  · cases ht

omit hx

theorem covers_or_end {d : Diagnostic} (hd : d ∈ (check file text).2) :
    (∃ x ∈ pieces text.toList, String.ofList x.image = d.found ∧ d.range.Covers x) ∨
      d.found = "" ∧ ∃ line, Text.HasLine text (line + 1) ∧
        d.range = ⟨⟨some line, none⟩, ⟨none, none⟩⟩ := by
  rcases mem_append.1 hd with hd | hd
  · obtain ⟨s, hs, rfl⟩ := mem_map.1 hd
    obtain ⟨x, hx, hs⟩ := mem_filterMap.1 hs
    exact .inl ⟨x, hx, covers_strayDiagnostic hx hs⟩
  · obtain ⟨c, hc, rfl⟩ := mem_map.1 hd
    cases htoken : c.token with
    | some t =>
      obtain ⟨x, hx, ht⟩ := mem_filterMap.1 (Machine.mem_of_mem_complaints hc htoken)
      exact .inl ⟨x, hx, covers_complaintDiagnostic hx htoken ht⟩
    | none =>
      refine .inr ⟨?_, lastLine (Scan.ofText text).tokens - 1, ?_, ?_⟩
      · rw [Diagnostic.found, complaintDiagnostic, complaintCause, htoken]
        rfl
      · have hline := hasLine_lastLine text
        rwa [Nat.sub_add_cancel hline.1]
      · simp only [complaintDiagnostic, htoken]

/-- **The ranges of diagnostics are well formed unless they are at the end of the text.**
    What a diagnostic has found is a piece of the text, and its range has just the
    characters of that piece.  Where nothing is found, at the end, the range has the line
    on which it starts and no other number. -/
theorem wellFormed_check_iff (file text : String) {d : Diagnostic} (hd : d ∈ (check file text).2) :
    (d.range.WellFormed ↔ d.found ≠ "") ∧
    (d.found ≠ "" → ∃ x ∈ Lexer.pieces text.toList, String.ofList x.image = d.found ∧
      d.range.Covers x) ∧
    (d.found = "" → ∃ line, Text.HasLine text (line + 1) ∧
      d.range = ⟨⟨some line, none⟩, ⟨none, none⟩⟩) := by
  rcases covers_or_end hd with ⟨x, hx, hfound, hcovers⟩ | ⟨hfound, line, hline, hrange⟩
  · have hne : d.found ≠ "" := by
      rw [← hfound, ← String.ofList_nil]
      exact fun heq => image_ne_nil hx (String.ofList_injective heq)
    exact ⟨iff_of_true hcovers.wellFormed hne, fun _ => ⟨x, hx, hfound, hcovers⟩,
      fun h => absurd h hne⟩
  · refine ⟨iff_of_false ?_ (not_not.2 hfound), fun h => absurd hfound h,
      fun _ => ⟨line, hline, hrange⟩⟩
    rw [hrange]
    rintro ⟨_, _, _, _, heq, -⟩
    cases heq

theorem wellFormed_check_word :
    ∃ d ∈ (check "a" "\n😀 import b").2, d.found = "b" ∧ d.range.WellFormed ∧
    ∃ x ∈ Lexer.pieces "\n😀 import b".toList, String.ofList x.image = "b" ∧ d.range.Covers x := by
  have hall : (check "a" "\n😀 import b").2 =
      [⟨.strayText "😀", "a", ⟨⟨some 1, some 0⟩, ⟨some 1, some 2⟩⟩⟩,
        ⟨.unexpected (.token (some .text)) "b", "a", ⟨⟨some 1, some 10⟩, ⟨some 1, some 11⟩⟩⟩] := by
        decide +kernel
  have hd : ⟨.unexpected (.token (some .text)) "b", "a", ⟨⟨some 1, some 10⟩, ⟨some 1, some 11⟩⟩⟩ ∈
      (check "a" "\n😀 import b").2 := by
    rw [hall]
    exact mem_cons_of_mem _ mem_cons_self
  obtain ⟨hiff, hpiece, -⟩ := wellFormed_check_iff "a" "\n😀 import b" hd
  exact ⟨_, hd, rfl, hiff.2 (by decide), hpiece (by decide)⟩

theorem not_wellFormed_check_end : ∃ d ∈ (check "a" "import").2, ¬ d.range.WellFormed := by
  have hall : (check "a" "import").2 =
      [⟨.unexpected (.token (some .text)) "", "a", ⟨⟨some 0, none⟩, ⟨none, none⟩⟩⟩] := by
      decide +kernel
  rw [hall]
  refine ⟨_, mem_singleton_self _, ?_⟩
  rintro ⟨_, _, _, _, heq, -⟩
  cases heq

end Source

end MessageSchema
