/-
  Where the pieces of a text stand.

  The pieces of a text are laid one after the other and leave nothing out, and what is passed
  over between its tokens, comments and stray runs is blank.  A place is carried along from
  piece to piece, so that a line starts only after a line end or inside a block comment; where
  every carriage return stands before a line feed, these are all the lines that the line feeds
  of the text start.
-/
import MessageSchema.Proofs.Literals
import Mathlib.Data.List.DropRight

namespace MessageSchema

open List Option Lexer Text

namespace Text

/-- The place after a text: its units, and its lines and the units on the last of them, which
    line feeds alone part. -/
def placeAfter (s : List Char) : Position :=
  ⟨units s, 1 + s.count '\n', 1 + units (s.rtakeWhile (· != '\n'))⟩

/-- Every carriage return stands before a line feed. -/
def PairsReturns : List Char → Prop
  | [] => True
  | c :: s => (c = '\r' → s.head? = some '\n') ∧ PairsReturns s

theorem placeAfter_feed (s : List Char) :
    placeAfter (s ++ ['\n']) = ⟨units s + 1, 1 + s.count '\n' + 1, 1⟩ := by
  simp [placeAfter, unitsOf, Nat.add_assoc]

theorem placeAfter_concat (s : List Char) {c : Char} (hc : c ≠ '\n') :
    placeAfter (s ++ [c]) = afterRun (placeAfter s) [c] := by
  simp [placeAfter, afterRun, hc, Nat.add_assoc]

namespace PairsReturns

variable {s t : List Char}

theorem right (h : PairsReturns (s ++ t)) : PairsReturns t := by
  induction s with
  | nil => exact h
  | cons c s ih => exact ih h.2

theorem left (h : PairsReturns (s ++ t)) (hlast : s.getLast? ≠ some '\r') : PairsReturns s := by
  induction s with
  | nil => trivial
  | cons c s ih =>
    cases s with
    | nil => exact ⟨fun hc => absurd (congrArg some hc) hlast, trivial⟩
    | cons d s => exact ⟨h.1, ih h.2 (by rwa [getLast?_cons_cons] at hlast)⟩

end PairsReturns

end Text

namespace Lexer

variable {s : List Char} {x : Piece}

/-! ## Line feeds -/

variable {n : Nat} {shape : Shape} {t : List Char}

theorem not_mem_feed_of_takeWhile {p : Char → Bool} (hp : p '\n' = false) (s : List Char) :
    '\n' ∉ s.take (s.takeWhile p).length := by
  rw [← prefix_iff_eq_take.1 (List.takeWhile_prefix p)]
  intro h
  rw [mem_takeWhile_imp h] at hp
  cases hp

theorem not_mem_feed_of_quotedLength (h : quotedLength s = some n) : '\n' ∉ s.take n := by
  obtain ⟨q, rest, hq, rfl, rfl⟩ := exists_quotable h
  have hfeed : '\n' ∉ q := by
    clear h
    induction hq with
    | nil => exact not_mem_nil
    | char _ _ hline _ ih => exact not_mem_cons_of_ne_of_not_mem (by rintro rfl; cases hline) ih
    | escape hend _ ih =>
      have hne : '\n' ≠ '\\' := by decide
      exact not_mem_cons_of_ne_of_not_mem hne
        (not_mem_cons_of_ne_of_not_mem (by rintro rfl; cases hend) ih)
  rw [take_length_add_append]
  simp [hfeed]

theorem not_mem_feed_of_recognizeWord {c : Char} (h : recognizeWord c s = some (shape, n)) :
    '\n' ∉ (c :: s).take n := by
  unfold recognizeWord at h
  split at h
  · next hquote =>
    obtain ⟨m, hm, hmap⟩ := map_eq_some_iff.1 h
    cases hmap
    simp [hquote, not_mem_feed_of_quotedLength hm]
  · split at h
    · next hlength =>
      cases h
      obtain ⟨m, rest, hchars, hm⟩ := Numeral.exists_number hlength
      rw [← hm, hchars, take_left]
      exact fun hfeed => absurd (Number.isChar_of_mem hfeed) (by decide)
    · split at h
      · next hname =>
        cases h
        have hfeed : '\n' ≠ c := by rintro rfl; cases hname
        simp [hfeed, not_mem_feed_of_takeWhile (p := isNameChar) rfl]
      · cases h

/-- What is recognized has a line feed only if it is a line end or a block comment. -/
theorem not_mem_feed_of_recognize (h : recognize s = some (shape, n))
    (hend : shape ≠ .lineEnd) (hblock : shape ≠ .comment .block) : '\n' ∉ s.take n := by
  unfold recognize at h
  split at h
  · cases h
  · exact absurd (congrArg Prod.fst (some.inj h)).symm hend
  · exact absurd (congrArg Prod.fst (some.inj h)).symm hend
  · cases h
    simp [not_mem_feed_of_takeWhile (p := isLineChar) rfl]
  · cases h
    simp [not_mem_feed_of_takeWhile (p := isLineChar) rfl]
  · obtain ⟨m, -, hmap⟩ := map_eq_some_iff.1 h
    exact absurd (congrArg Prod.fst hmap).symm hblock
  · cases h
    simp
  · next c s hfeed _ _ _ _ _ =>
    have hc : '\n' ≠ c := by rintro rfl; exact hfeed rfl
    split at h
    · cases h
      simp [hc, not_mem_feed_of_takeWhile (p := isGap) rfl]
    · split at h
      · cases h
        simp [hc]
      · exact not_mem_feed_of_recognizeWord h

theorem not_mem_feed_of_stray (s : List Char) : '\n' ∉ s.take (strayLength s) := by
  induction s with
  | nil => simp
  | cons c s ih =>
    rw [strayLength]
    split
    · simp
    · next hnone =>
      have hfeed : '\n' ≠ c := by rintro rfl; exact hnone rfl
      simp [hfeed, ih]

/-- **Lines end in line ends and block comments only.** -/
theorem not_mem_feed {p : Position} (h : x ∈ piecesFrom p 0 s) (hend : x.shape ≠ .lineEnd)
    (hblock : x.shape ≠ .comment .block) : '\n' ∉ x.image := by
  obtain ⟨q, c, s, rfl⟩ := exists_firstPiece h
  unfold firstPiece at hend hblock ⊢
  cases hrecognize : recognize (c :: s) with
  | some found =>
    obtain ⟨shape, n⟩ := found
    obtain ⟨-, hpos, -⟩ := recognize_elim hrecognize
    obtain ⟨m, rfl⟩ : ∃ m, n = m + 1 := ⟨n - 1, by omega⟩
    rw [hrecognize] at hend hblock
    exact not_mem_feed_of_recognize hrecognize hend hblock
  | none =>
    have hfeed : '\n' ≠ c := by rintro rfl; cases hrecognize
    simp [hfeed, not_mem_feed_of_stray]

/-! ## Places -/

theorem afterRun_placeAfter (s : List Char) (h : '\n' ∉ t) :
    afterRun (placeAfter s) t = placeAfter (s ++ t) := by
  induction t generalizing s with
  | nil => simp [afterRun]
  | cons c t ih =>
    rw [mem_cons, not_or] at h
    rw [append_cons, ← ih (s ++ [c]) h.2, placeAfter_concat s (Ne.symm h.1), afterRun_afterRun]
    rfl

theorem afterLines_placeAfter (s : List Char) (h : PairsReturns t) :
    afterLines (placeAfter s) t = placeAfter (s ++ t) := by
  induction t generalizing s with
  | nil => simp [afterLines]
  | cons c t ih =>
    have hstep : stepLine (placeAfter s) c t.head? = placeAfter (s ++ [c]) := by
      by_cases hfeed : c = '\n'
      · subst hfeed
        rw [placeAfter_feed]
        rfl
      · have hreturn : ¬ (c = '\r' ∧ t.head? ≠ some '\n') := fun hc => hc.2 (h.1 hc.1)
        rw [placeAfter_concat s hfeed, stepLine, if_neg (by simp [hfeed, hreturn])]
        rfl
    rw [afterLines, hstep, ih _ h.2, ← append_cons]

/-- **A piece leads from the place after a text to the place after it and the piece**, where
    every carriage return stands before a line feed. -/
theorem next_eq_placeAfter {xs : List Piece} (h : piecesFrom (placeAfter s) 0 t = x :: xs)
    (hreturns : PairsReturns t) : x.next = placeAfter (s ++ x.image) := by
  have hmem : x ∈ piecesFrom (placeAfter s) 0 t := by rw [h]; exact mem_cons_self
  have hlaid := laid_piecesFrom (placeAfter s) t
  rw [h] at hlaid
  obtain ⟨-, ht, -, hx⟩ := piecesFrom_eq_cons h
  rw [ht] at hreturns hx
  rw [Piece.next, hlaid.1]
  by_cases hend : x.shape = .lineEnd
  · rw [hend] at hx ⊢
    refine afterLines_placeAfter s (hreturns.left ?_)
    rcases lineEnd_of_recognize (hx.resolve_left fun hstray => by cases hstray.1) with hx | hx <;>
      simp [hx]
  by_cases hblock : x.shape = .comment .block
  · rw [hblock] at hx ⊢
    refine afterLines_placeAfter s (hreturns.left ?_)
    have htext := commentText_of_recognize (hx.resolve_left fun hstray => by cases hstray.1)
    generalize x.image = y at htext
    cases htext with
    | @block y hy =>
      have hslash := (blockLength_take hy).2.2.1
      rw [take_length] at hslash
      simp [getLast?_cons, hslash]
  have hrun : after (placeAfter s) x.shape x.image = afterRun (placeAfter s) x.image := by
    unfold after
    split
    · next hshape => exact absurd hshape hend
    · next hshape => exact absurd hshape hblock
    · rfl
  rw [hrun, afterRun_placeAfter s (not_mem_feed hmem hend hblock)]

theorem first_eq_placeAfter {before after : List Piece}
    (h : piecesFrom (placeAfter s) 0 t = before ++ x :: after) (hreturns : PairsReturns t) :
    x.first = placeAfter (s ++ before.flatMap (·.image)) := by
  induction before generalizing s t with
  | nil =>
    rw [flatMap_nil, append_nil]
    have hlaid := laid_piecesFrom (placeAfter s) t
    rw [h] at hlaid
    exact hlaid.1
  | cons y before ih =>
    obtain ⟨-, ht, hrest, -⟩ := piecesFrom_eq_cons h
    rw [next_eq_placeAfter h hreturns] at hrest
    rw [ht] at hreturns
    rw [ih hrest hreturns.right, flatMap_cons, append_assoc]

/-- **A piece is the text between its offsets.** -/
theorem image_eq_slice (h : x ∈ pieces s) : x.image = slice x.first.offset x.next.offset s := by
  obtain ⟨before, after, hsplit⟩ := append_of_mem h
  rw [← singleton_append, ← append_assoc] at hsplit
  have hlaid : Laid .origin (before ++ [x] ++ after) := hsplit ▸ laid_piecesFrom .origin s
  have hslice : slice x.first.offset x.next.offset _ = [x].flatMap (·.image) :=
    slice_of_laid hlaid rfl rfl
  rw [← hsplit, flatMap_image_pieces] at hslice
  rw [hslice, flatMap_singleton]

theorem first_eq_placeAfter_takeUnits (hreturns : PairsReturns s) (h : x ∈ pieces s) :
    x.first = placeAfter (takeUnits x.first.offset s) := by
  obtain ⟨before, after, hsplit⟩ := append_of_mem h
  have hfirst : x.first = placeAfter (before.flatMap (·.image)) :=
    first_eq_placeAfter (s := []) (t := s) hsplit hreturns
  have hs := flatMap_image_pieces s
  rw [hsplit, flatMap_append] at hs
  have htake : takeUnits x.first.offset s = before.flatMap (·.image) := by
    rw [hfirst, ← hs]
    exact takeUnits_append _ _
  rw [htake, hfirst]

theorem blank_of_mem_pieces (h : x ∈ pieces s) :
    (x.shape = .blank → ∀ c ∈ x.image, isGap c = true) ∧
      (x.shape = .lineEnd → x.image = ['\n'] ∨ x.image = ['\r', '\n']) := by
  obtain ⟨before, after, hsplit⟩ := append_of_mem h
  obtain ⟨-, htext, -, hx⟩ := piecesFrom_eq_cons (piecesFrom_drop_pieces hsplit)
  rw [htext] at hx
  rcases hx with ⟨hstray, -⟩ | hx
  · simp [hstray]
  · exact ⟨fun hshape => isGap_of_recognize (hshape ▸ hx),
      fun hshape => lineEnd_of_recognize (hshape ▸ hx)⟩

end Lexer

/-! ## Tokens and comments -/

/-- A lexeme is what its text has from its first to its last unit. -/
def Lexeme.IsCut {κ : Type} (t : Lexeme κ) (s : List Char) : Prop :=
  t.image = String.ofList (slice t.first.offset (t.last.offset + 1) s)

/-- The line and the column of a lexeme, from the text before it. -/
def Lexeme.IsPlaced {κ : Type} (t : Lexeme κ) (s : List Char) : Prop :=
  t.first.line = 1 + (takeUnits t.first.offset s).count '\n' ∧
    t.first.column = 1 + units ((takeUnits t.first.offset s).rtakeWhile (· != '\n'))

variable {s : List Char} {x : Piece} {text : String}

theorem Lexeme.isCut (h : x ∈ pieces s) {κ : Type} (k : κ) : (x.lexeme k).IsCut s := by
  rw [IsCut, last_offset_succ (image_ne_nil h)]
  exact congrArg String.ofList (image_eq_slice h)

theorem Lexeme.isPlaced (hreturns : PairsReturns s) (h : x ∈ pieces s)
    {κ : Type} (k : κ) : (x.lexeme k).IsPlaced s := by
  have hplace := first_eq_placeAfter_takeUnits hreturns h
  exact ⟨congrArg Position.line hplace, congrArg Position.column hplace⟩

theorem Scan.forall_mem_tokens {P : Token → Prop}
    (h : ∀ x ∈ pieces text.toList, ∀ k : Kind, P (x.lexeme k)) :
    ∀ t ∈ (Scan.ofText text).tokens, P t := by
  intro t ht
  obtain ⟨x, hx, ht⟩ := mem_filterMap.1 ht
  obtain ⟨k, -, rfl⟩ := Piece.token?_eq_some ht
  exact h x hx k

theorem Scan.forall_mem_comments {P : Comment → Prop}
    (h : ∀ x ∈ pieces text.toList, ∀ k : CommentKind, P (x.lexeme k)) :
    ∀ c ∈ (Scan.ofText text).comments, P c := by
  intro c hc
  obtain ⟨x, hx, hc⟩ := mem_filterMap.1 hc
  obtain ⟨k, -, rfl⟩ := Piece.comment?_eq_some hc
  exact h x hx k

/-- **A text is cut up without loss, and its tokens and comments stand where they say.**  Its
    pieces are not empty, stand in order without overlap and make up the text, each one being
    the text between its offsets; what is passed over is blank.  If every carriage return stands
    before a line feed, lines count the line feeds before a token or comment, and columns the
    units since the last of them. -/
theorem Scan.faithful (text : String) :
    (Lexer.pieces text.toList).flatMap (·.image) = text.toList ∧
      (Lexer.pieces text.toList).Pairwise (fun x y => x.next.offset ≤ y.first.offset) ∧
      (∀ x ∈ Lexer.pieces text.toList, x.first.offset < x.next.offset ∧
        x.image = Text.slice x.first.offset x.next.offset text.toList ∧
        (x.shape = .blank → ∀ c ∈ x.image, Lexer.isGap c = true) ∧
        (x.shape = .lineEnd → x.image = ['\n'] ∨ x.image = ['\r', '\n'])) ∧
      (∀ t ∈ (Scan.ofText text).tokens, t.IsCut text.toList) ∧
      (∀ c ∈ (Scan.ofText text).comments, c.IsCut text.toList) ∧
      (Text.PairsReturns text.toList → (∀ t ∈ (Scan.ofText text).tokens, t.IsPlaced text.toList) ∧
        ∀ c ∈ (Scan.ofText text).comments, c.IsPlaced text.toList) :=
  ⟨flatMap_image_pieces _, pairwise_of_laid (laid_piecesFrom .origin _),
    fun _ hx => ⟨offset_lt_next (image_ne_nil hx), image_eq_slice hx, blank_of_mem_pieces hx⟩,
    forall_mem_tokens fun _ hx k => Lexeme.isCut hx k, forall_mem_comments fun _ hx k =>
    Lexeme.isCut hx k,
    fun hreturns => ⟨forall_mem_tokens fun _ hx k => Lexeme.isPlaced hreturns hx k,
      forall_mem_comments fun _ hx k => Lexeme.isPlaced hreturns hx k⟩⟩

theorem Scan.faithful_across_lines :
    Text.PairsReturns "a\r\n/*\n*/ b".toList ∧
      (∀ t ∈ (Scan.ofText "a\r\n/*\n*/ b").tokens, t.IsPlaced "a\r\n/*\n*/ b".toList) ∧
      (Scan.ofText "a\r\n/*\n*/ b").tokens.map (fun t => (t.image, t.first)) =
        [("a", ⟨0, 1, 1⟩), ("b", ⟨9, 3, 4⟩)] := by
  have hreturns : PairsReturns "a\r\n/*\n*/ b".toList := by simp [PairsReturns]
  exact ⟨hreturns, ((Scan.faithful _).2.2.2.2.2 hreturns).1, by decide +kernel⟩

end MessageSchema
