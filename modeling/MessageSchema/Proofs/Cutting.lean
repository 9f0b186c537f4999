/-
  Texts cut between two pieces.

  What is recognized at the front of a text is recognized as well if the text breaks
  off after it, with nothing, a gap or another line in place of the rest.  So a text
  that is cut between two pieces, and goes on in another way, has the pieces before the
  cut and those of what it goes on with.  Only blanks and comments at the cut would go
  on into a gap, so one of them asks for another line.
-/
import MessageSchema.Proofs.Blanking

namespace MessageSchema

open List

def Shape.IsToken (shape : Shape) : Prop := ∃ k, shape = .token k

namespace Lexer

/-- Nothing, or a text that starts with a line break. -/
def BreaksLine (z : List Char) : Prop := ∀ c ∈ z.head?, isLineChar c = false

/-- Nothing, or a text that starts with a gap or a line break. -/
def Stops (z : List Char) : Prop := ∀ c ∈ z.head?, isGap c = true ∨ isLineChar c = false

variable {z x y w : List Char} {p : Char → Bool} {c : Char}

theorem BreaksLine.stops (h : BreaksLine z) : Stops z := fun c hc => Or.inr (h c hc)

theorem eq_false_of_not_isLineChar (hfeed : p '\n' = false) (hreturn : p '\r' = false)
    (hc : isLineChar c = false) : p c = false := by
  by_cases hn : c = '\n'
  · rw [hn, hfeed]
  · by_cases hr : c = '\r'
    · rw [hr, hreturn]
    · simp [isLineChar, hn, hr] at hc

theorem Stops.eq_false (h : Stops z)
    (hp : ['\n', '\r', ' ', '\t', '\x0c'].any p = false) (hc : c ∈ z.head?) : p c = false := by
  simp only [any_cons, any_nil, Bool.or_eq_false_iff] at hp
  obtain ⟨hfeed, hreturn, hspace, htab, hform, -⟩ := hp
  rcases h c hc with hgap | hline
  · rcases isGap_iff.1 hgap with rfl | rfl | rfl <;> assumption
  · exact eq_false_of_not_isLineChar hfeed hreturn hline

theorem head_cut (hz : x = [] → ∀ c ∈ z.head?, p c = false)
    (h : ∀ c ∈ (x ++ y).head?, p c = false) : ∀ c ∈ (x ++ z).head?, p c = false := by
  cases x with
  | nil => exact hz rfl
  | cons c x => exact h

/-! ## Pieces -/

theorem CommentText.followed (hslash : ∀ c ∈ z.head?, (c == '/') = false)
    (hend : x = [] → BreaksLine y → BreaksLine z) {k : CommentKind} (h : CommentText (x ++ y) k w) :
    CommentText (x ++ z) k w := by
  have hbreaks : BreaksLine (x ++ y) → BreaksLine (x ++ z) := fun hrest =>
    head_cut (fun hnil => hend hnil (by rwa [hnil] at hrest)) hrest
  cases h with
  | doc hw hrest => exact .doc hw (hbreaks hrest)
  | @line w hw hrest hother =>
    refine .line hw (hbreaks hrest) fun hhead => ?_
    rw [← append_assoc] at hother hhead
    have hnot : ∀ c ∈ (w ++ x ++ z).head?, (c == '/') = false := head_cut (fun _ => hslash)
      fun c hc => beq_eq_false_iff_ne.2 fun heq => hother (heq ▸ hc)
    cases hnot '/' hhead
  | block hw => exact .block hw

/-- **What is recognized before a text** is recognized before another one with which it does not
    go on. -/
theorem recognize_followed (hw : w ≠ []) {shape : Shape}
    (h : recognize (w ++ (x ++ y)) = some (shape, w.length))
    (hgap : ¬ shape.IsToken → x = [] → ∀ c ∈ z.head?, isGap c = false)
    (hslash : ∀ c ∈ z.head?, (c == '/') = false)
    (hend : ¬ shape.IsToken → x = [] → BreaksLine y → BreaksLine z)
    (hends : ∀ k, shape = .token k → Ends w (x ++ z)) :
    recognize (w ++ (x ++ z)) = some (shape, w.length) := by
  cases shape with
  | stray => exact absurd rfl (recognize_elim h).1
  | comment k =>
    exact ((commentText_of_recognize h).followed hslash (hend (by rintro ⟨_, ⟨⟩⟩))).recognize_eq
  | lineEnd => rcases lineEnd_of_recognize h with rfl | rfl <;> rfl
  | blank =>
    have hall := isGap_of_recognize h
    obtain ⟨c, w, rfl⟩ := exists_cons_of_ne_nil hw
    have hc := hall c mem_cons_self
    rw [cons_append, recognize_gap hc] at h ⊢
    obtain ⟨hall, hhead⟩ :=
      head_of_length_takeWhile (Nat.succ.inj (Prod.mk.inj (Option.some.inj h)).2)
    rw [takeWhile_append_of_head hall (head_cut (hgap (by rintro ⟨_, ⟨⟩⟩)) hhead)]
    rfl
  | token k => exact recognize_token_of_ends hw h (hends k rfl)

section Cut

variable {z : List Char} (hz : Stops z)
include hz

variable {w x y : List Char}

theorem Ends.cut (h : Ends w (x ++ y)) : Ends w (x ++ z) where
  colon hw hhead := by
    have hcolon : ∀ c ∈ (x ++ z).head?, (c == ':') = false := head_cut
      (fun _ _ => hz.eq_false (p := (· == ':')) (by decide)) fun c hc =>
      beq_eq_false_iff_ne.2 fun heq => h.colon hw (heq ▸ hc)
    cases hcolon ':' hhead
  name hw := head_cut (fun _ _ => hz.eq_false (by decide)) (h.name hw)
  number := by
    refine le_trans (Numeral.length_mono fun n hn => ?_) h.number
    rw [← append_assoc] at hn ⊢
    refine (prefix_of_head hn fun c hc hmem => ?_).trans (prefix_append _ _)
    exact absurd (Number.isChar_of_mem hmem)
      (by rw [hz.eq_false (p := Number.isChar) (by decide) hc]; decide)

/-- **What is recognized before a cut** is recognized if the text goes on in another way. -/
theorem recognize_cut (hw : w ≠ []) {shape : Shape} (hx : x = [] → shape.IsToken ∨ BreaksLine z)
    (h : recognize (w ++ (x ++ y)) = some (shape, w.length)) :
    recognize (w ++ (x ++ z)) = some (shape, w.length) := by
  have hbreaks : ¬ shape.IsToken → x = [] → BreaksLine z :=
    fun hno hnil => (hx hnil).resolve_left hno
  refine recognize_followed hw h (fun hno hnil d hd => ?_)
    (fun c hc => hz.eq_false (p := (· == '/')) (by decide) hc) (fun hno hnil _ => hbreaks hno hnil)
    fun k hk => (ends_of_recognize hw (hk ▸ h)).cut hz
  exact eq_false_of_not_isLineChar rfl rfl (hbreaks hno hnil d hd)

end Cut

/-- The place after pieces that follow each other from a place on. -/
def endFrom (p : Position) : List Piece → Position
  | [] => p
  | x :: xs => endFrom x.next xs

variable {p : Position} {s : List Char} {xs ys : List Piece}

theorem piecesFrom_drop_pieces (h : piecesFrom p 0 s = xs ++ ys) :
    piecesFrom (endFrom p xs) 0 (ys.flatMap (·.image)) = ys := by
  induction xs generalizing p s with
  | nil =>
    rw [endFrom, ← nil_append ys, ← h, flatMap_image_piecesFrom, drop_zero]
  | cons x xs ih => exact ih (piecesFrom_eq_cons h).2.2.1

theorem recognize_of_pieces {x : Piece} {k : Kind} (h : pieces s = xs ++ x :: ys)
    (hx : x.shape = .token k) :
    recognize (x.image ++ ys.flatMap (·.image)) = some (.token k, x.image.length) := by
  obtain ⟨-, htext, -, hshape⟩ := piecesFrom_eq_cons (piecesFrom_drop_pieces h)
  rw [htext] at hshape
  rw [hx] at hshape
  exact hshape.resolve_left fun hstray => by cases hstray.1

/-- **A text that is cut** between two pieces, and goes on in another way. -/
theorem piecesFrom_cut {z : List Char} (hz : Stops z)
    (h : piecesFrom p 0 s = xs ++ ys) (hxs : ∀ x ∈ xs, x.shape ≠ .stray)
    (hlast : ∀ x ∈ xs.getLast?, x.shape.IsToken ∨ BreaksLine z) :
    piecesFrom p 0 (xs.flatMap (·.image) ++ z) = xs ++ piecesFrom (endFrom p xs) 0 z := by
  induction xs generalizing p s with
  | nil => rfl
  | cons x xs ih =>
    obtain ⟨hx, hxs⟩ := forall_mem_cons.1 hxs
    obtain ⟨hne, htext, hrest, hshape⟩ := piecesFrom_eq_cons h
    have himages : ∀ y ∈ xs, y.image ≠ [] := fun y hy => by
      refine @image_ne_nil_of_mem p 0 s _ ?_
      rw [h]
      exact mem_append_left _ (mem_cons_of_mem _ hy)
    have hend : xs.flatMap (·.image) = [] → x.shape.IsToken ∨ BreaksLine z := fun hnil => by
      obtain rfl : xs = [] := eq_nil_iff_forall_not_mem.2 fun y hy =>
        himages y hy (flatMap_eq_nil_iff.1 hnil y hy)
      exact hlast x rfl
    have hrecognize := hshape.resolve_left fun hstray => hx hstray.1
    rw [htext, append_eq, flatMap_append] at hrecognize
    have hfirst : x.first = p := by
      have hlaid := laid_piecesFrom p s
      rw [h] at hlaid
      exact hlaid.1
    rw [flatMap_cons, append_assoc,
      piecesFrom_of_recognize hne (recognize_cut hz hne hend hrecognize), ← hfirst]
    refine congrArg (x :: ·) (ih hrest hxs fun y hy => hlast y ?_)
    rw [Option.mem_def] at hy
    rw [getLast?_cons, hy]
    rfl

end Lexer

end MessageSchema
