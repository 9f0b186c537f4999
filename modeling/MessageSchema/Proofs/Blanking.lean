/-
  Texts with blanks in place of comments.

  Where some comments of a text are blanked out, up to their line ends, the text is
  still cut into the same tokens: they stand on the same lines, and what is stray
  stays stray.
-/
import MessageSchema.Proofs.Recognition

namespace MessageSchema

open List Lexer Piece

namespace Lexer

/-! ## Gaps -/

inductive GapText : List Char → Prop
  | nil : GapText []
  | gap {c s} : isGap c = true → GapText s → GapText (c :: s)
  | feed {s} : GapText s → GapText ('\n' :: s)
  | returnFeed {s} : GapText s → GapText ('\r' :: '\n' :: s)

theorem afterRun_afterRun (p : Position) (s t : List Char) :
    afterRun (afterRun p s) t = afterRun p (s ++ t) := by
  simp [afterRun, Nat.add_assoc]

theorem stepLine_gap {c : Char} (hc : isGap c = true) (p : Position) (next : Option Char) :
    stepLine p c next = afterRun p [c] := by
  rcases isGap_iff.1 hc with rfl | rfl | rfl <;> rfl

/-- A function that takes nothing from blanks and line ends. -/
def SkipsGaps {β : Type} (f : Piece → Option β) : Prop :=
  ∀ piece : Piece, piece.shape = .blank ∨ piece.shape = .lineEnd → f piece = none

theorem skipsGaps_token? : SkipsGaps token? := by
  rintro piece (hblank | hend)
  · rw [token?, hblank]
  · rw [token?, hend]

theorem skipsGaps_stray? : SkipsGaps stray? := by
  rintro piece (hblank | hend)
  · rw [stray?, hblank]
  · rw [stray?, hend]

section Passing

variable {β : Type} {f : Piece → Option β} (hf : SkipsGaps f)

include hf

theorem filterMap_gaps (p : Position) (s : List Char) :
    (piecesFrom p 0 s).filterMap f =
      (piecesFrom (afterRun p (s.takeWhile isGap)) 0 (s.dropWhile isGap)).filterMap f := by
  cases s with
  | nil => rfl
  | cons c s =>
    by_cases hc : isGap c = true
    · have hrecognize : recognize ((c :: s.takeWhile isGap) ++ s.dropWhile isGap) =
          some (.blank, (c :: s.takeWhile isGap).length) := by
        rw [cons_append, takeWhile_append_dropWhile]
        exact recognize_gap hc s
      have hpieces := piecesFrom_of_recognize (cons_ne_nil _ _) hrecognize p
      rw [cons_append, takeWhile_append_dropWhile] at hpieces
      rw [hpieces, filterMap_cons_none (hf _ (.inl rfl)), takeWhile_cons_of_pos hc,
        dropWhile_cons_of_pos hc]
      rfl
    · rw [takeWhile_cons_of_neg hc, dropWhile_cons_of_neg hc]
      rfl

theorem filterMap_gap {c : Char} (hc : isGap c = true) (p : Position) (s : List Char) :
    (piecesFrom p 0 (c :: s)).filterMap f = (piecesFrom (afterRun p [c]) 0 s).filterMap f := by
  rw [filterMap_gaps hf p, filterMap_gaps hf (afterRun p [c]), afterRun_afterRun,
    takeWhile_cons_of_pos hc, dropWhile_cons_of_pos hc, singleton_append]

/-- **Blanks and line ends may be passed over.** -/
theorem filterMap_gapText {w : List Char} (hw : GapText w) (p : Position) (s : List Char) :
    (piecesFrom p 0 (w ++ s)).filterMap f = (piecesFrom (afterLines p w) 0 s).filterMap f := by
  induction hw generalizing p with
  | nil => rfl
  | @gap c w hc _ ih => rw [cons_append, filterMap_gap hf hc, ih, afterLines, stepLine_gap hc]
  | @feed w _ ih =>
    have hpieces : piecesFrom p 0 ('\n' :: (w ++ s)) = ⟨.lineEnd, ['\n'], p⟩ ::
        piecesFrom _ 0 (w ++ s) :=
      piecesFrom_of_recognize (x := ['\n']) (by simp) rfl p
    rw [cons_append, hpieces, filterMap_cons_none (hf _ (.inr rfl)), ih]
    rfl
  | @returnFeed w _ ih =>
    have hpieces : piecesFrom p 0 ('\r' :: '\n' :: (w ++ s)) =
        ⟨.lineEnd, ['\r', '\n'], p⟩ :: piecesFrom _ 0 (w ++ s) :=
      piecesFrom_of_recognize (x := ['\r', '\n']) (by simp) rfl p
    rw [cons_append, cons_append, hpieces, filterMap_cons_none (hf _ (.inr rfl)), ih]
    rfl

end Passing

/-! ## Blanking out -/

/-- A text with a blank in place of every character that ends no line. -/
def blankOut (s : List Char) : List Char := s.map fun c => if isLineChar c then ' ' else c

variable {x rest rest' : List Char}

theorem blankOut_cons_of_pos {c : Char} (hc : isLineChar c = true) (s : List Char) :
    blankOut (c :: s) = ' ' :: blankOut s := by
  simp [blankOut, hc]

theorem blankOut_cons_of_neg {c : Char} (hc : ¬isLineChar c = true) (s : List Char) :
    blankOut (c :: s) = c :: blankOut s := by
  simp [blankOut, hc]

/-- Whether every carriage return of a text stands before a line feed, and no backslash
    before a line or paragraph separator. -/
def isPlain : List Char → Bool
  | [] => true
  | c :: s =>
    (c != '\r' || s.head? == some '\n') &&
      (c != '\\' || s.head? != some '\u2028' && s.head? != some '\u2029') && isPlain s

theorem gapText_blankOut {s : List Char} (h : isPlain s = true) : GapText (blankOut s) := by
  induction s with
  | nil => exact .nil
  | cons c s ih =>
    simp only [isPlain, Bool.and_eq_true] at h
    obtain ⟨⟨hreturn, -⟩, hplain⟩ := h
    have hs := ih hplain
    by_cases hline : isLineChar c = true
    · rw [blankOut_cons_of_pos hline]
      exact .gap rfl hs
    · rw [blankOut_cons_of_neg hline]
      have hend : c = '\n' ∨ c = '\r' := by
        simp only [isLineChar, Bool.and_eq_true, bne_iff_ne, ne_eq, not_and_or, not_not] at hline
        exact hline
      rcases hend with rfl | rfl
      · exact .feed hs
      · have hhead : s.head? = some '\n' := by simpa using hreturn
        obtain ⟨t, rfl⟩ := head?_eq_some_iff.1 hhead
        cases hs with
        | gap hgap _ => cases hgap
        | feed ht => exact .returnFeed ht

/-- A comment with blanks in place of its characters looks faded to what comes before. -/
theorem faded_blankOut (hx : isPlain x = true)
    (hlast : x.getLast? = some '\\' → ∀ d ∈ rest.head?, isLineChar d = false)
    (hrest : Faded rest rest') : Faded (x ++ rest) (blankOut x ++ rest') := by
  induction x with
  | nil => exact hrest
  | cons c x ih =>
    simp only [isPlain, Bool.and_eq_true] at hx
    obtain ⟨⟨-, hescape⟩, hplain⟩ := hx
    have hfaded : Faded (x ++ rest) (blankOut x ++ rest') := by
      refine ih hplain fun hback => hlast ?_
      rw [getLast?_cons, hback]
      rfl
    by_cases hline : isLineChar c = true
    · rw [blankOut_cons_of_pos hline, cons_append, cons_append]
      refine .blank hline ?_ hfaded
      rintro rfl d hd hdline
      cases x with
      | nil =>
        rw [hlast rfl d hd] at hdline
        cases hdline
      | cons e x =>
        obtain rfl : e = d := Option.some.inj hd
        have hseparator : e ≠ '\u2028' ∧ e ≠ '\u2029' := by simpa using hescape
        have hends : e ≠ '\n' ∧ e ≠ '\r' := by simpa [isLineChar] using hdline
        exact ⟨by simp [Text.isLineEnd, hseparator, hends],
          by rw [blankOut_cons_of_pos hdline]; rfl⟩
    · rw [blankOut_cons_of_neg hline]
      exact .keep (by rintro rfl; exact absurd rfl hline) hfaded

theorem faded_append (hagree : Agree rest rest') (hrest : Faded rest rest') :
    Faded (x ++ rest) (x ++ rest') := by
  induction x with
  | nil => exact hrest
  | cons c x ih =>
    refine .keep (fun _ d hd hend => ?_) ih
    have hne : (x ++ rest).head? ≠ some '/' := by
      rintro hslash
      obtain rfl : d = '/' := Option.some.inj (hd.symm.trans hslash)
      cases hend
    exact ((hagree.append x).head?_eq_of_ne hne).trans hd

end Lexer

/-! ## Pieces -/

theorem Lexer.piecesFrom_eq_cons {p : Position} {s : List Char} {x : Piece} {xs : List Piece}
    (h : piecesFrom p 0 s = x :: xs) :
    x.image ≠ [] ∧ s = x.image ++ xs.flatMap (·.image) ∧
      piecesFrom x.next 0 (xs.flatMap (·.image)) = xs ∧
      (x.shape = .stray ∧ recognize s = none ∨ recognize s = some (x.shape, x.image.length)) := by
  cases s with
  | nil => cases h
  | cons c s =>
    rw [piecesFrom_cons] at h
    obtain ⟨hx, hxs⟩ := cons.inj h
    have himage := firstPiece_image p c s
    rw [hx] at himage hxs
    have hrest : xs.flatMap (·.image) = s.drop (firstPiece p c s).2 := by
      rw [← hxs, flatMap_image_piecesFrom, drop_zero]
    refine ⟨by rw [himage]; exact cons_ne_nil _ _, ?_, by rw [hrest, hxs], ?_⟩
    · rw [himage, hrest, cons_append, take_append_drop]
    · cases hrecognize : recognize (c :: s) with
      | none =>
        refine .inl ⟨?_, rfl⟩
        rw [← hx, firstPiece, hrecognize]
      | some found =>
        obtain ⟨shape, n⟩ := found
        obtain ⟨-, hpos, hle⟩ := recognize_elim hrecognize
        rw [length_cons] at hle
        refine .inr ?_
        rw [← hx, firstPiece, hrecognize]
        simp only [length_cons, length_take, Option.some_inj, Prod.mk.injEq, true_and]
        omega

section Pieces

variable (chosen : Comment → Bool) {x : Piece} {p : Position} {s : List Char} {q : List Piece}

/-- Whether a piece is one of the chosen comments, and plain. -/
def Piece.isHidden (piece : Piece) : Bool :=
  match piece.comment? with
  | some c => isPlain piece.image && chosen c
  | none => false

/-- A piece, blanked out if it is hidden. -/
def Piece.fade (piece : Piece) : List Char :=
  if piece.isHidden chosen then blankOut piece.image else piece.image

/-- A faded piece at another place.  A hidden one may span lines. -/
def Piece.fadeAt (p : Position) (piece : Piece) : Piece :=
  if piece.isHidden chosen then ⟨.lineEnd, blankOut piece.image, p⟩ else { piece with first := p }

/-- Pieces that are faded and laid out anew. -/
def fadeFrom (p : Position) : List Piece → List Piece
  | [] => []
  | x :: xs => x.fadeAt chosen p :: fadeFrom (x.fadeAt chosen p).next xs

/-- A text with blanks in place of the chosen comments. -/
def blankComments (s : List Char) : List Char := (pieces s).flatMap (fade chosen)

variable {chosen}

theorem Piece.image_fadeAt (p : Position) (piece : Piece) :
    (piece.fadeAt chosen p).image = piece.fade chosen := by
  rw [fadeAt, fade]
  split <;> rfl

theorem Piece.first_fadeAt (p : Position) (piece : Piece) : (piece.fadeAt chosen p).first = p := by
  rw [fadeAt]
  split <;> rfl

theorem flatMap_image_fadeFrom (p : Position) (q : List Piece) :
    (fadeFrom chosen p q).flatMap (·.image) = q.flatMap (fade chosen) := by
  induction q generalizing p with
  | nil => rfl
  | cons x xs ih => rw [fadeFrom, flatMap_cons, flatMap_cons, ih, image_fadeAt]

theorem laid_fadeFrom (p : Position) (q : List Piece) : Laid p (fadeFrom chosen p q) := by
  induction q generalizing p with
  | nil => trivial
  | cons x xs ih => exact ⟨x.first_fadeAt p, ih _⟩

theorem Piece.isHidden_elim (h : x.isHidden chosen = true) :
    isPlain x.image = true ∧ ∃ k, x.shape = .comment k ∧ chosen (x.lexeme k) = true := by
  unfold isHidden comment? at h
  split at h
  · next c hc =>
    rw [Bool.and_eq_true] at h
    split at hc
    · next k hk =>
      cases hc
      exact ⟨h.1, k, hk, h.2⟩
    · cases hc
  · cases h

theorem Piece.fade_of_shown (h : x.isHidden chosen = false) : x.fade chosen = x.image := by
  rw [fade, h, if_neg Bool.false_ne_true]

theorem Piece.commentText_of_isHidden {xs : List Piece} (h : piecesFrom p 0 s = x :: xs)
    (hx : x.isHidden chosen = true) :
    ∃ k, x.shape = .comment k ∧ CommentText (xs.flatMap (·.image)) k x.image := by
  obtain ⟨-, k, hk, -⟩ := isHidden_elim hx
  obtain ⟨-, htext, -, hshape⟩ := piecesFrom_eq_cons h
  rw [hk, htext] at hshape
  exact ⟨k, hk, commentText_of_recognize (hshape.resolve_left fun hstray => by cases hstray.1)⟩

/-- A faded text looks the same to what comes before it. -/
theorem agree_fade (h : piecesFrom p 0 s = q) :
    Agree s (q.flatMap (fade chosen)) ∧ Faded s (q.flatMap (fade chosen)) := by
  induction q generalizing p s with
  | nil =>
    have htext := flatMap_image_piecesFrom p 0 s
    rw [h, drop_zero] at htext
    subst htext
    exact ⟨.nil, .nil⟩
  | cons x xs ih =>
    obtain ⟨-, htext, hxs, -⟩ := piecesFrom_eq_cons h
    obtain ⟨hagree, hfaded⟩ := ih hxs
    rw [htext, flatMap_cons, fade]
    split
    · next hhidden =>
      obtain ⟨k, -, hcomment⟩ := commentText_of_isHidden h hhidden
      refine ⟨?_, faded_blankOut (isHidden_elim hhidden).1 hcomment.isLineChar_head hfaded⟩
      obtain ⟨y, hy⟩ := hcomment.exists_cons
      rw [hy]
      exact .slash
    · exact ⟨hagree.append _, faded_append hagree hfaded⟩

theorem afterLines_of_gaps {w : List Char} (h : ∀ c ∈ w, isGap c = true) (p : Position) :
    afterLines p w = afterRun p w := by
  induction w generalizing p with
  | nil => rfl
  | cons c w ih =>
    obtain ⟨hc, hw⟩ := forall_mem_cons.1 h
    rw [afterLines, stepLine_gap hc, ih hw, afterRun_afterRun, singleton_append]

theorem gapText_of_gaps {w : List Char} (h : ∀ c ∈ w, isGap c = true) : GapText w := by
  induction w with
  | nil => exact .nil
  | cons c w ih =>
    obtain ⟨hc, hw⟩ := forall_mem_cons.1 h
    exact .gap hc (ih hw)

/-- **A faded piece is cut off a faded text**, or passed over if it is a gap. -/
theorem filterMap_fade_cons {β : Type} {f : Piece → Option β} (hf : SkipsGaps f) {xs : List Piece}
    (h : piecesFrom p 0 s = x :: xs) (hx : x.shape ≠ .stray) (p' : Position) :
    (piecesFrom p' 0 (x.fade chosen ++ xs.flatMap (fade chosen))).filterMap f =
      (f (x.fadeAt chosen p')).toList ++
        (piecesFrom (x.fadeAt chosen p').next 0 (xs.flatMap (fade chosen))).filterMap f := by
  obtain ⟨hne, htext, hxs, hshape⟩ := piecesFrom_eq_cons h
  obtain ⟨hagree, -⟩ := @agree_fade chosen _ _ _ hxs
  have hrecognize := hshape.resolve_left fun hstray => hx hstray.1
  generalize xs.flatMap (·.image) = rest at htext hagree
  subst htext
  rw [fade, fadeAt]
  by_cases hhidden : x.isHidden chosen = true
  · rw [if_pos hhidden, if_pos hhidden, hf _ (.inr rfl),
      filterMap_gapText hf (gapText_blankOut (isHidden_elim hhidden).1)]
    rfl
  · rw [if_neg hhidden, if_neg hhidden]
    obtain ⟨shape, image, first⟩ := x
    have hcut : recognize (image ++ xs.flatMap (fade chosen)) = some (shape, image.length) →
        (piecesFrom p' 0 (image ++ xs.flatMap (fade chosen))).filterMap f =
          (f ⟨shape, image, p'⟩).toList ++
            (piecesFrom (after p' shape image) 0 (xs.flatMap (fade chosen))).filterMap f :=
            fun hcut => by
      rw [piecesFrom_of_recognize hne hcut, filterMap_cons]
      cases f ⟨shape, image, p'⟩ <;> rfl
    cases shape with
    | stray => exact absurd rfl hx
    | token k => exact hcut (recognize_token_of_agree hne hrecognize hagree)
    | comment k => exact hcut (recognize_comment_of_agree hrecognize hagree)
    | blank =>
      have hgaps := isGap_of_recognize hrecognize
      rw [hf _ (.inl rfl), filterMap_gapText hf (gapText_of_gaps hgaps), afterLines_of_gaps hgaps]
      rfl
    | lineEnd =>
      have hgap : GapText image := by
        rcases lineEnd_of_recognize hrecognize with rfl | rfl
        · exact .feed .nil
        · exact .returnFeed .nil
      rw [hf _ (.inr rfl), filterMap_gapText hf hgap]
      rfl

/-- **The tokens of a faded text** are those of the faded pieces. -/
theorem filterMap_fadeFrom {β : Type} {f : Piece → Option β} (hf : SkipsGaps f)
    (h : piecesFrom p 0 s = q) (hq : ∀ x ∈ q, x.shape ≠ .stray) (p' : Position) :
    (piecesFrom p' 0 (q.flatMap (fade chosen))).filterMap f =
      (fadeFrom chosen p' q).filterMap f := by
  induction q generalizing p p' s with
  | nil => rfl
  | cons x xs ih =>
    obtain ⟨hx, hrest⟩ := forall_mem_cons.1 hq
    rw [flatMap_cons, filterMap_fade_cons hf h hx, ih (piecesFrom_eq_cons h).2.2.1 hrest, fadeFrom,
      filterMap_cons]
    cases f (x.fadeAt chosen p') <;> rfl

/-- What is stray stays stray in a faded text. -/
theorem exists_stray_fade (h : piecesFrom p 0 s = q) (hq : ∃ x ∈ q, x.shape = .stray)
    (p' : Position) : (piecesFrom p' 0 (q.flatMap (fade chosen))).filterMap stray? ≠ [] := by
  induction q generalizing p p' s with
  | nil =>
    obtain ⟨x, hx, -⟩ := hq
    cases hx
  | cons x xs ih =>
    obtain ⟨hne, htext, hxs, hshape⟩ := piecesFrom_eq_cons h
    by_cases hx : x.shape = .stray
    · obtain ⟨hagree, hfaded⟩ := @agree_fade chosen _ _ _ hxs
      have hnone : recognize s = none := by
        rcases hshape with hstray | hsome
        · exact hstray.2
        · rw [hx] at hsome
          exact absurd rfl (recognize_elim hsome).1
      have hshown : x.isHidden chosen = false := by
        rw [isHidden, comment?, hx]
      obtain ⟨c, y, hy⟩ := exists_cons_of_ne_nil hne
      rw [flatMap_cons, fade_of_shown hshown, hy, cons_append, piecesFrom_cons]
      rw [htext, hy, cons_append] at hnone
      have hfirst := recognize_eq_none_of_faded hnone (hagree.append y) (faded_append hagree hfaded)
      rw [firstPiece, hfirst, filterMap_cons]
      exact cons_ne_nil _ _
    · have hrest : ∃ y ∈ xs, y.shape = .stray := by
        obtain ⟨y, hy, hstray⟩ := hq
        rcases mem_cons.1 hy with rfl | hy
        · exact absurd hstray hx
        · exact ⟨y, hy, hstray⟩
      rw [flatMap_cons, filterMap_fade_cons skipsGaps_stray? h hx]
      exact append_ne_nil_of_right_ne_nil _ (ih hxs hrest _)

/-! ## Lines -/

namespace Lexer

theorem line_stepLine (p : Position) (c : Char) (next : Option Char) : (stepLine p c next).line =
    if c = '\n' ∨ c = '\r' ∧ next ≠ some '\n' then p.line + 1 else p.line := by
  unfold stepLine
  simp only
  split <;> rfl

theorem line_afterLines_congr {p' : Position} (h : p.line = p'.line) (s : List Char) :
    (afterLines p s).line = (afterLines p' s).line := by
  induction s generalizing p p' with
  | nil => exact h
  | cons c s ih => exact ih (by rw [line_stepLine, line_stepLine, h])

theorem line_after_congr {p' : Position} (h : p.line = p'.line) (shape : Shape) (s : List Char) :
    (after p shape s).line = (after p' shape s).line := by
  unfold after
  split
  · exact line_afterLines_congr h s
  · exact line_afterLines_congr h s
  · exact h

theorem line_afterLines_of_run (p : Position) {s : List Char} (h : ∀ c ∈ s, isLineChar c = true) :
    (afterLines p s).line = p.line := by
  induction s generalizing p with
  | nil => rfl
  | cons c s ih =>
    obtain ⟨hc, hs⟩ := forall_mem_cons.1 h
    have hends : c ≠ '\n' ∧ c ≠ '\r' := by simpa [isLineChar] using hc
    rw [afterLines, ih _ hs, line_stepLine, if_neg (by simp [hends])]

/-- Blanking a text out leaves its lines. -/
theorem line_afterLines_blankOut (p : Position) (s : List Char) :
    (afterLines p (blankOut s)).line = (afterLines p s).line := by
  induction s generalizing p with
  | nil => rfl
  | cons c s ih =>
    have hhead : (blankOut s).head? = some '\n' ↔ s.head? = some '\n' := by
      cases s with
      | nil => rfl
      | cons d s =>
        by_cases hd : isLineChar d = true
        · have hne : d ≠ '\n' := by
            rintro rfl
            cases hd
          simp [blankOut_cons_of_pos hd, hne]
        · simp [blankOut_cons_of_neg hd]
    have hstep : (stepLine p (if isLineChar c then ' ' else c) (blankOut s).head?).line =
        (stepLine p c s.head?).line := by
      simp only [line_stepLine, ne_eq, hhead]
      by_cases hc : isLineChar c = true
      · have hends : c ≠ '\n' ∧ c ≠ '\r' := by simpa [isLineChar] using hc
        simp [hc, hends]
      · simp [hc]
    calc (afterLines p (blankOut (c :: s))).line
        =
        (afterLines (stepLine p (if isLineChar c then ' ' else c) (blankOut s).head?)
        (blankOut s)).line := rfl
      _ = (afterLines (stepLine p c s.head?) (blankOut s)).line := line_afterLines_congr hstep _
      _ = (afterLines (stepLine p c s.head?) s).line := ih _

theorem CommentText.line_after {rest x : List Char} {k : CommentKind} (h : CommentText rest k x)
    (p : Position) : (after p (.comment k) x).line = (afterLines p x).line := by
  cases h with
  | doc hy _ =>
    rw [line_afterLines_of_run p (by simpa using ⟨rfl, hy⟩)]
    rfl
  | line hy _ _ =>
    rw [line_afterLines_of_run p (by simpa using ⟨rfl, hy⟩)]
    rfl
  | block _ => rfl

end Lexer

variable (chosen) in
/-- A piece and what becomes of it: it stays on its lines, and stays what it is unless it
    is hidden. -/
structure Piece.Fades (x x' : Piece) : Prop where
  first : x.first.line = x'.first.line
  next : x.next.line = x'.next.line
  shape : x'.shape = if x.isHidden chosen then .lineEnd else x.shape
  image : x'.image = x.fade chosen

variable {x' : Piece}

theorem Piece.Fades.shape_of_shown (h : Piece.Fades chosen x x') (hx : x.isHidden chosen = false) :
    x'.shape = x.shape := by
  rw [h.shape, hx, if_neg Bool.false_ne_true]

theorem Piece.Fades.image_of_shown (h : Piece.Fades chosen x x') (hx : x.isHidden chosen = false) :
    x'.image = x.image := h.image.trans (fade_of_shown hx)

theorem Piece.fades_fadeAt {xs : List Piece} {p' : Position} (h : piecesFrom x.first 0 s = x :: xs)
    (hline : x.first.line = p'.line) : Fades chosen x (x.fadeAt chosen p') := by
  refine ⟨by rw [first_fadeAt, hline], ?_, by rw [fadeAt]; split <;> rfl, image_fadeAt p' x⟩
  rw [fadeAt]
  split
  · next hhidden =>
    obtain ⟨k, hk, hcomment⟩ := commentText_of_isHidden h hhidden
    calc x.next.line = (afterLines x.first x.image).line := by rw [next, hk, hcomment.line_after]
      _ = (afterLines x.first (blankOut x.image)).line := (line_afterLines_blankOut _ _).symm
      _ = (afterLines p' (blankOut x.image)).line := line_afterLines_congr hline _
  · exact line_after_congr hline _ _

/-- **Faded pieces stay on their lines.** -/
theorem forall₂_fadeFrom {p' : Position} (h : piecesFrom p 0 s = q) (hline : p.line = p'.line) :
    Forall₂ (Fades chosen) q (fadeFrom chosen p' q) := by
  induction q generalizing p p' s with
  | nil => exact .nil
  | cons x xs ih =>
    have hfirst : x.first = p := by
      have hlaid := laid_piecesFrom p s
      rw [h] at hlaid
      exact hlaid.1
    subst hfirst
    have hfades := @fades_fadeAt chosen _ _ _ _ h hline
    exact .cons hfades (ih (piecesFrom_eq_cons h).2.2.1 hfades.next)

end Pieces

end MessageSchema
