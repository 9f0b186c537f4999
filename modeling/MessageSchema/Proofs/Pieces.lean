/-
  Pieces of a text and the places where they stand.

  * `recognize_colon`, `recognize_eq_recognizeWord` and the like: what is recognized
    by the first character.
-/
import MessageSchema.Token.Lexer
import Mathlib.Data.List.Basic

namespace MessageSchema

open List Piece Numeral Text

/-- The position right after a piece. -/
def Piece.next (piece : Piece) : Position := Lexer.after piece.first piece.shape piece.image

variable {x : Piece}

theorem Piece.token?_eq_some {t : Token} (h : x.token? = some t) :
    ∃ k, x.shape = .token k ∧ t = x.lexeme k := by
  unfold token? at h
  split at h
  · next k hk => exact ⟨k, hk, (Option.some.inj h).symm⟩
  · cases h

theorem Piece.comment?_eq_some {c : Comment} (h : x.comment? = some c) :
    ∃ k, x.shape = .comment k ∧ c = x.lexeme k := by
  unfold comment? at h
  split at h
  · next k hk => exact ⟨k, hk, (Option.some.inj h).symm⟩
  · cases h

namespace Lexer

variable {c : Char} {p : Position} {q : List Piece}

/-! ## Recognizing by the first character -/

variable {piece x y : Piece} {i j : Nat}

theorem isGap_iff : isGap c = true ↔ c = ' ' ∨ c = '\t' ∨ c = '\x0c' := by
  simp [isGap, or_assoc]

theorem recognize_gap (h : isGap c = true) (s : List Char) :
    recognize (c :: s) = some (.blank, (s.takeWhile isGap).length + 1) := by
  rcases isGap_iff.1 h with rfl | rfl | rfl <;> simp [recognize, isGap]

theorem recognize_colon (s : List Char) : recognize (':' :: s) =
    if s.head? = some ':' then some (.token .colons, 2) else some (.token .colon, 1) := by
  cases s with
  | nil => rfl
  | cons d s =>
    by_cases hd : d = ':'
    · subst hd
      rfl
    · simp [recognize, hd, isGap, punctuation?]

theorem recognize_punctuation (hcolon : c ≠ ':') {k : Kind} (h : punctuation? c = some k)
    (s : List Char) : recognize (c :: s) = some (.token k, 1) := by
  unfold punctuation? at h
  split at h <;> first | exact absurd rfl hcolon | (obtain rfl := Option.some.inj h; rfl) | cases h

theorem recognize_eq_recognizeWord (hc : c ∉ ['\n', '\r', '/', ':']) (hgap : isGap c = false)
    (hmark : punctuation? c = none) (s : List Char) : recognize (c :: s) = recognizeWord c s := by
  simp only [mem_cons, not_mem_nil, or_false, not_or] at hc
  obtain ⟨hn, hr, hs, hcolon⟩ := hc
  unfold recognize
  split
  · next heq => cases heq
  · next heq => exact absurd (cons.inj heq).1 hn
  · next heq => exact absurd (cons.inj heq).1 hr
  · next heq => exact absurd (cons.inj heq).1 hs
  · next heq => exact absurd (cons.inj heq).1 hs
  · next heq => exact absurd (cons.inj heq).1 hs
  · next heq => exact absurd (cons.inj heq).1 hcolon
  · next heq =>
    obtain ⟨rfl, rfl⟩ := cons.inj heq
    rw [hgap, hmark]
    rfl

/-- The characters that start a line end, a comment, a gap or a punctuation mark. -/
def markers : List Char :=
  ['\n', '\r', '/', ':', ' ', '\t', '\x0c', ';', ',', '.', '|', '=', '{', '}', '[', ']', '<', '>']

theorem recognize_of_not_mem_markers (h : c ∉ markers) (s : List Char) :
    recognize (c :: s) = recognizeWord c s := by
  have hne : ∀ d ∈ markers, c ≠ d := by
    rintro d hd rfl
    exact h hd
  refine recognize_eq_recognizeWord ?_ ?_ ?_ s
  · simp [hne '\n' (by decide), hne '\r' (by decide), hne '/' (by decide), hne ':' (by decide)]
  · simp [isGap, hne ' ' (by decide), hne '\t' (by decide), hne '\x0c' (by decide)]
  · unfold punctuation?
    split <;> first | rfl | exact absurd rfl (hne _ (by decide))

theorem not_mem_of_any {p : Char → Bool} {cs : List Char} (hp : cs.any p = false)
    (hc : p c = true) : c ∉ cs := by
  intro h
  rw [any_eq_false] at hp
  exact hp c h hc

theorem numeralLength_eq_zero (hsign : c ≠ '-') (hdigit : isDigit c = false) (s : List Char) :
    Numeral.length (c :: s) = 0 := by
  have hsplit : splitSign (c :: s) = (false, c :: s) := by
    rw [splitSign]
    rintro t heq
    exact hsign (cons.inj heq).1
  rw [Numeral.length, hsplit]
  simp [splitDigits, hdigit]

theorem recognize_return (s : List Char) : recognize ('\r' :: s) =
    if s.head? = some '\n' then some (.lineEnd, 2) else none := by
  cases s with
  | nil => rfl
  | cons d s =>
    by_cases hd : d = '\n'
    · subst hd
      rfl
    · have hnumeral := numeralLength_eq_zero (c := '\r') (by decide) (by decide) (d :: s)
      simp [recognize, hd, isGap, punctuation?, recognizeWord, isNameStart, hnumeral]

theorem recognize_slash {s : List Char} (hslash : s.head? ≠ some '/') (hstar : s.head? ≠ some '*') :
    recognize ('/' :: s) = none := by
  cases s with
  | nil => rfl
  | cons d s =>
    rw [head?_cons, Ne, Option.some_inj] at hslash hstar
    have hnumeral := numeralLength_eq_zero (c := '/') (by decide) (by decide) (d :: s)
    simp [recognize, hslash, hstar, isGap, punctuation?, recognizeWord, isNameStart, hnumeral]

/-! ## Cutting -/

theorem piecesFrom_drop (p : Position) (n : Nat) (s : List Char) :
    piecesFrom p n s = piecesFrom p 0 (s.drop n) := by
  induction s generalizing n with
  | nil => cases n <;> rfl
  | cons c s ih =>
    cases n with
    | zero => rfl
    | succ n => rw [piecesFrom, ih, drop_succ_cons]

theorem first_firstPiece (p : Position) (c : Char) (s : List Char) :
    (firstPiece p c s).1.first = p := by
  unfold firstPiece
  split <;> rfl

theorem piecesFrom_cons (p : Position) (c : Char) (s : List Char) :
    piecesFrom p 0 (c :: s) =
      (firstPiece p c s).1 :: piecesFrom (firstPiece p c s).1.next 0
        (s.drop (firstPiece p c s).2) := by
  rw [piecesFrom, Piece.next, first_firstPiece, ← piecesFrom_drop]

/-- **A text is cut after what is recognized at its front.** -/
theorem piecesFrom_of_recognize {x rest : List Char} (hx : x ≠ []) {shape : Shape}
    (h : recognize (x ++ rest) = some (shape, x.length)) (p : Position) :
    piecesFrom p 0 (x ++ rest) = ⟨shape, x, p⟩ :: piecesFrom (after p shape x) 0 rest := by
  cases x with
  | nil => exact absurd rfl hx
  | cons c x =>
    have hfirst : firstPiece p c (x ++ rest) = (⟨shape, c :: x, p⟩, x.length) := by
      rw [firstPiece]
      rw [cons_append] at h
      simp [h]
    rw [cons_append, piecesFrom_cons, hfirst, drop_left]
    rfl

/-! ## Offsets -/

theorem offset_afterLines (p : Position) (s : List Char) :
    (afterLines p s).offset = p.offset + units s := by
  induction s generalizing p with
  | nil => rfl
  | cons c s ih =>
    have hstep : (stepLine p c s.head?).offset = p.offset + unitsOf c := by
      unfold stepLine
      simp only
      split <;> rfl
    rw [afterLines, ih, hstep, units_cons, Nat.add_assoc]

theorem offset_after (p : Position) (shape : Shape) (s : List Char) :
    (after p shape s).offset = p.offset + units s := by
  unfold after
  split
  · exact offset_afterLines p s
  · exact offset_afterLines p s
  · rfl

/-- Pieces that follow each other from a place on. -/
def Laid : Position → List Piece → Prop
  | _, [] => True
  | p, piece :: rest => piece.first = p ∧ Laid piece.next rest

theorem laid_piecesFrom (p : Position) (s : List Char) : Laid p (piecesFrom p 0 s) := by
  induction hn : s.length using Nat.strongRecOn generalizing p s with
  | _ n ih =>
    cases s with
    | nil => trivial
    | cons c s =>
      rw [piecesFrom_cons]
      refine ⟨first_firstPiece p c s, ih _ ?_ _ _ rfl⟩
      rw [← hn, length_drop, length_cons]
      omega

/-- The offset of a piece counts the units of the pieces before it. -/
theorem offset_of_laid {before after : List Piece} (h : Laid p (before ++ piece :: after)) :
    piece.first.offset = p.offset + units (before.flatMap (·.image)) := by
  induction before generalizing p with
  | nil => rw [h.1]; rfl
  | cons q before ih =>
    rw [ih h.2, Piece.next, offset_after, h.1, flatMap_cons, units_append, Nat.add_assoc]

/-- **The text between the offsets of pieces is made of the pieces between them.** -/
theorem slice_of_laid {before between after : List Piece} {first last : Piece}
    (h : Laid .origin (before ++ between ++ after)) (hfirst : between.head? = some first)
    (hlast : between.getLast? = some last) :
    slice first.first.offset last.next.offset ((before ++ between ++ after).flatMap (·.image)) =
      between.flatMap (·.image) := by
  have hstart : first.first.offset = units (before.flatMap (·.image)) := by
    obtain ⟨rest, rfl⟩ := head?_eq_some_iff.1 hfirst
    rw [append_assoc, cons_append] at h
    rw [offset_of_laid h]
    exact Nat.zero_add _
  have hstop : last.next.offset =
      units (before.flatMap (·.image)) + units (between.flatMap (·.image)) := by
    obtain ⟨rest, rfl⟩ := getLast?_eq_some_iff.1 hlast
    have h' : Laid .origin ((before ++ rest) ++ last :: after) := by simpa using h
    rw [Piece.next, offset_after, offset_of_laid h']
    simp [Position.origin, Nat.add_assoc]
  rw [hstart, hstop, flatMap_append, flatMap_append, append_assoc]
  exact slice_append _ _ _

/-- A piece that is not empty takes up one unit at least. -/
theorem offset_lt_next (h : piece.image ≠ []) : piece.first.offset < piece.next.offset := by
  rw [Piece.next, offset_after]
  cases himage : piece.image with
  | nil => exact absurd himage h
  | cons c x =>
    have hc := unitsOf_pos c
    rw [units_cons]
    omega

theorem offset_le_of_laid (h : Laid p q) (hx : q[i]? = some x) : p.offset ≤ x.first.offset := by
  induction q generalizing p i with
  | nil => cases hx
  | cons y q ih =>
    cases i with
    | zero =>
      cases hx
      exact Nat.le_of_eq (congrArg Position.offset h.1.symm)
    | succ i =>
      have hle := ih h.2 hx
      rw [Piece.next, offset_after, h.1] at hle
      omega

/-- A piece ends before the next ones start. -/
theorem pairwise_of_laid (h : Laid p q) : q.Pairwise fun x y => x.next.offset ≤ y.first.offset := by
  induction q generalizing p with
  | nil => exact .nil
  | cons x q ih =>
    refine .cons (fun y hy => ?_) (ih h.2)
    obtain ⟨i, hi⟩ := getElem?_of_mem hy
    exact offset_le_of_laid h.2 hi

theorem next_offset_le_of_laid (h : Laid p q) (hx : q[i]? = some x) (hy : q[j]? = some y)
    (hij : i < j) : x.next.offset ≤ y.first.offset := by
  obtain ⟨hi, rfl⟩ := List.getElem?_eq_some_iff.1 hx
  obtain ⟨hj, rfl⟩ := List.getElem?_eq_some_iff.1 hy
  exact pairwise_iff_getElem.1 (pairwise_of_laid h) i j hi hj hij

theorem first_offset_le_of_laid (h : Laid p q) (hx : q[i]? = some x) (hy : q[j]? = some y)
    (hij : i ≤ j) : x.first.offset ≤ y.first.offset := by
  rcases Nat.lt_or_eq_of_le hij with hlt | rfl
  · have hle := next_offset_le_of_laid h hx hy hlt
    rw [Piece.next, offset_after] at hle
    omega
  · cases hx.symm.trans hy
    exact Nat.le_refl _

end Lexer

end MessageSchema
