/-
  Texts with other separators.

  A name before a separator ends before the other one as well, and so does whatever else may
  stand there, except for a colon and a number.  So a text in which some separators are
  exchanged has the same pieces, but for these, if none of them follows a colon or a number.
-/
import MessageSchema.Proofs.Appending

namespace MessageSchema

open List Piece

namespace Lexer

/-! ## Recognizing what stands before a separator -/

/-- A text that starts with a character of a separator. -/
def Links (s : List Char) : Prop := ∃ c ∈ s.head?, c = ':' ∨ c = '.'

theorem Links.eq_false {z : List Char} (hz : Links z) {p : Char → Bool} (hcolon : p ':' = false)
    (hdot : p '.' = false) : ∀ c ∈ z.head?, p c = false := by
  obtain ⟨d, hd, hlink⟩ := hz
  intro c hc
  cases hc.symm.trans hd
  rcases hlink with rfl | rfl
  · exact hcolon
  · exact hdot

theorem dot_not_mem_digits (ds : Digits) : '.' ∉ ds.chars :=
  fun h => absurd (ds.isDigit _ h) (by decide)

theorem exists_number_of_dot {n : Number} {w rest : List Char} (h : n.chars = w ++ '.' :: rest) :
    ∃ m : Number, m.chars = w := by
  obtain ⟨negative, whole, fraction, exponent⟩ := n
  have hwhole : '.' ∉ (if negative then ['-'] else []) ++ whole.chars := by
    cases negative <;> simp [dot_not_mem_digits]
  have hexponent : '.' ∉ Number.exponentChars exponent := by
    cases exponent with
    | none => exact not_mem_nil
    | some e =>
      obtain ⟨isUpper, sign, digits⟩ := e
      cases isUpper <;> rcases sign with _ | _ | _ <;>
        simp [Number.exponentChars, Exponent.chars, Exponent.signChars, dot_not_mem_digits]
  rw [Number.chars, ← append_assoc] at h
  cases fraction with
  | none =>
    have hdot : '.' ∈ ((if negative then ['-'] else []) ++ whole.chars) ++
        Number.exponentChars exponent := by
      rw [show _ ++ Number.exponentChars exponent = _ from h]
      simp
    exact absurd hdot (not_mem_append hwhole hexponent)
  | some ds =>
    have hrest : '.' ∉ ds.chars ++ Number.exponentChars exponent :=
      not_mem_append (dot_not_mem_digits ds) hexponent
    obtain ⟨rfl, -, -⟩ := (append_cons_inj_of_notMem hwhole hrest).1 h
    exact ⟨⟨negative, whole, none, none⟩,
      by simp [Number.chars, Number.fractionChars, Number.exponentChars]⟩

section Relink

variable {w x y z : List Char} (hz : Links z)
include hz

theorem numeralLength_relink (h : Numeral.length (w ++ (x ++ y)) ≤ w.length)
    (hx : x = [] → ∀ n : Number, n.chars ≠ w) : Numeral.length (w ++ (x ++ z)) ≤ w.length := by
  have hshort : ∀ n : Number, n.chars <+: w ++ x → n.chars.length ≤ w.length := by
    rintro n ⟨t, ht⟩
    refine (n.length_le (t ++ y)).trans ?_
    rwa [← append_assoc, ht, append_assoc]
  by_contra hlong
  obtain ⟨n, rest, hn, hlength⟩ := Numeral.exists_number (Nat.zero_lt_of_lt (Nat.not_le.1 hlong))
  have hnot : ¬ n.chars <+: w ++ x := fun hle => hlong (hlength ▸ hshort n hle)
  obtain ⟨c, hc, hlink⟩ := hz
  obtain ⟨z, rfl⟩ : ∃ z', z = c :: z' := ⟨_, (cons_head?_tail hc).symm⟩
  rw [← append_assoc] at hn
  -- the number goes on with the separator, which is a dot, and stops before it as well
  obtain ⟨t, ht⟩ : w ++ x ++ [c] <+: n.chars := by
    rcases prefix_or_prefix_of_prefix (⟨rest, hn.symm⟩ : n.chars <+: w ++ x ++ c :: z)
      (⟨z, by simp⟩ : w ++ x ++ [c] <+: w ++ x ++ c :: z) with hle | hle
    · rcases prefix_concat_iff.1 hle with heq | hle
      · exact heq ▸ prefix_rfl
      · exact absurd hle hnot
    · exact hle
  obtain rfl : c = '.' := hlink.resolve_left fun hcolon => by
    have hmem : c ∈ n.chars := by simp [← ht]
    exact absurd (Number.isChar_of_mem hmem) (by rw [hcolon]; decide)
  obtain ⟨m, hm⟩ := exists_number_of_dot (show n.chars = (w ++ x) ++ '.' :: t by simp [← ht])
  have hle := hshort m (hm ▸ prefix_rfl)
  rw [hm, length_append] at hle
  obtain rfl : x = [] := length_eq_zero_iff.1 (by omega)
  exact hx rfl m (by rw [hm, append_nil])

theorem ends_relink {k : Kind} (hw : w ≠ []) (hx : x = [] → k ≠ .colon ∧ k ≠ .number)
    (h : recognize (w ++ (x ++ y)) = some (.token k, w.length)) : Ends w (x ++ z) := by
  have hends := ends_of_recognize hw h
  refine ⟨fun hcolon hhead => ?_,
    fun hname => head_cut (fun _ => hz.eq_false (by decide) (by decide)) (hends.name hname),
    numeralLength_relink hz hends.number ?_⟩
  · cases x with
    | nil =>
      subst hcolon
      have hnot : y.head? ≠ some ':' := hends.colon rfl
      rw [nil_append, singleton_append, recognize_colon, if_neg hnot] at h
      exact (hx rfl).1 (by cases h; rfl)
    | cons c x => exact hends.colon hcolon hhead
  · rintro rfl n rfl
    have hpos : 0 < Numeral.length (n.chars ++ y) := (length_pos_iff.2 hw).trans_le (n.length_le y)
    rw [nil_append, n.recognize_append hpos] at h
    exact (hx rfl).2 (Shape.token.inj (Prod.mk.inj (Option.some.inj h)).1).symm

/-- **What is recognized before a separator** is recognized before the other one. -/
theorem recognize_relink (hy : Links y) {shape : Shape} (hw : w ≠ [])
    (hx : x = [] → shape ≠ .token .colon ∧ shape ≠ .token .number)
    (h : recognize (w ++ (x ++ y)) = some (shape, w.length)) :
    recognize (w ++ (x ++ z)) = some (shape, w.length) := by
  refine recognize_followed hw h (fun _ _ => hz.eq_false (by decide) (by decide))
    (hz.eq_false (p := (· == '/')) rfl rfl) (fun _ _ hend => ?_) fun k hk => ?_
  · obtain ⟨c, hc, hlink⟩ := hy
    rcases hlink with rfl | rfl <;> cases hend _ hc
  · subst hk
    exact ends_relink hz hw
      (fun hnil => ⟨fun hk => (hx hnil).1 (by rw [hk]), fun hk => (hx hnil).2 (by rw [hk])⟩) h

end Relink

end Lexer

/-! ## Exchanging separators -/

namespace Piece

variable (chosen : Token → Bool)

/-- The other separator, if a piece is a chosen one. -/
def otherLink? (x : Piece) : Option (Kind × List Char) :=
  match x.shape with
  | .token .colons => if chosen (x.lexeme .colons) then some (.dot, ['.']) else none
  | .token .dot => if chosen (x.lexeme .dot) then some (.colons, [':', ':']) else none
  | _ => none

/-- The text of a piece, or the other separator. -/
def relink (x : Piece) : List Char :=
  match x.otherLink? chosen with
  | some other => other.2
  | none => x.image

/-- A piece at a place, or the other separator. -/
def relinkAt (p : Position) (x : Piece) : Piece :=
  match x.otherLink? chosen with
  | some other => ⟨.token other.1, other.2, p⟩
  | none => { x with first := p }

variable {chosen} {x : Piece} {k : Kind}

theorem otherLink?_elim {s : List Char} (h : x.otherLink? chosen = some (k, s)) :
    (∃ l, l.isLink = true ∧ x.shape = .token l ∧ chosen (x.lexeme l) = true) ∧
      (k = .dot ∧ s = ['.'] ∨ k = .colons ∧ s = [':', ':']) := by
  unfold otherLink? at h
  split at h
  · next hshape =>
    split at h
    · next hchosen =>
      cases h
      exact ⟨⟨_, rfl, hshape, hchosen⟩, .inl ⟨rfl, rfl⟩⟩
    · cases h
  · next hshape =>
    split at h
    · next hchosen =>
      cases h
      exact ⟨⟨_, rfl, hshape, hchosen⟩, .inr ⟨rfl, rfl⟩⟩
    · cases h
  · cases h

theorem image_relinkAt (p : Position) (x : Piece) :
    (x.relinkAt chosen p).image = x.relink chosen := by
  unfold relinkAt relink
  split <;> rfl

theorem first_relinkAt (p : Position) (x : Piece) : (x.relinkAt chosen p).first = p := by
  unfold relinkAt
  split <;> rfl

theorem links_relink (h : (x.otherLink? chosen).isSome = true) (s : List Char) :
    Lexer.Links (x.relink chosen ++ s) := by
  obtain ⟨⟨k, w⟩, hother⟩ := Option.isSome_iff_exists.1 h
  rw [relink, hother]
  rcases (otherLink?_elim hother).2 with ⟨-, rfl⟩ | ⟨-, rfl⟩
  · exact ⟨'.', rfl, .inr rfl⟩
  · exact ⟨':', rfl, .inl rfl⟩

theorem IsLink.links (h : x.IsLink) (s : List Char) : Lexer.Links (x.image ++ s) := by
  rcases h with ⟨-, himage⟩ | ⟨-, himage⟩
  · exact ⟨':', by rw [himage]; rfl, .inl rfl⟩
  · exact ⟨'.', by rw [himage]; rfl, .inr rfl⟩

theorem isLink_of_mem {text : String} (hx : x ∈ Lexer.pieces text.toList)
    (hk : k.isLink = true) (hshape : x.shape = .token k) : x.IsLink := by
  have hshaped : Token.Shaped (x.lexeme k) :=
    shaped_of_mem_tokens (mem_filterMap.2 ⟨x, hx, by rw [token?, hshape]⟩)
  cases k <;> cases hk
  · exact .inl ⟨hshape, String.ofList_injective (hshaped.colons rfl)⟩
  · exact .inr ⟨hshape, String.ofList_injective (hshaped.dot rfl)⟩

end Piece

section Relinked

variable (chosen : Token → Bool)

/-- Pieces from a place on, with the other separators in place of the chosen ones. -/
def relinkFrom (p : Position) : List Piece → List Piece
  | [] => []
  | x :: xs => x.relinkAt chosen p :: relinkFrom (x.relinkAt chosen p).next xs

variable {chosen}

theorem exists_first_relinked (q : List Piece) : q.flatMap (relink chosen) = q.flatMap (·.image) ∨
    ∃ us v vs, q = us ++ v :: vs ∧ us.flatMap (relink chosen) = us.flatMap (·.image) ∧
      (v.otherLink? chosen).isSome = true := by
  induction q with
  | nil => exact .inl rfl
  | cons x xs ih =>
    cases hother : x.otherLink? chosen with
    | some other => exact .inr ⟨[], x, xs, rfl, rfl, by rw [hother]; rfl⟩
    | none =>
      have hx : x.relink chosen = x.image := by rw [relink, hother]
      rcases ih with heq | ⟨us, v, vs, rfl, hus, hv⟩
      · exact .inl (by rw [flatMap_cons, flatMap_cons, hx, heq])
      · exact .inr ⟨x :: us, v, vs, rfl, by rw [flatMap_cons, flatMap_cons, hx, hus], hv⟩

open Lexer in
/-- **The pieces of a text with other separators**, none of which stands right after a colon or
    a number. -/
theorem piecesFrom_relink {p : Position} {s : List Char} {q : List Piece} (h : piecesFrom p 0 s = q)
    (hstray : ∀ x ∈ q, x.shape ≠ .stray)
    (hlink : ∀ x ∈ q, ∀ k : Kind, k.isLink = true → x.shape = .token k → x.IsLink)
    (hafter : q.IsChain fun x y => (y.otherLink? chosen).isSome = true → x.shape ≠ .token .colon ∧
      x.shape ≠ .token .number)
    (p' : Position) : piecesFrom p' 0 (q.flatMap (relink chosen)) = relinkFrom chosen p' q := by
  induction q generalizing p s p' with
  | nil => rfl
  | cons x xs ih =>
    obtain ⟨hne, htext, hxs, hshape⟩ := piecesFrom_eq_cons h
    obtain ⟨hx, hstray⟩ := forall_mem_cons.1 hstray
    have hrecognize := hshape.resolve_left fun hnone => hx hnone.1
    rw [htext] at hrecognize
    have hrest := ih hxs hstray (fun y hy => hlink y (mem_cons_of_mem x hy)) hafter.tail
    have hcut : recognize ((x.relinkAt chosen p').image ++ xs.flatMap (relink chosen)) =
        some ((x.relinkAt chosen p').shape, (x.relinkAt chosen p').image.length) := by
      rw [relinkAt]
      split
      · next other hother =>
        rcases (otherLink?_elim hother).2 with ⟨hk, hs⟩ | ⟨hk, hs⟩
        · rw [hk, hs]
          rfl
        · rw [hk, hs]
          rfl
      · rcases @exists_first_relinked chosen xs with heq | ⟨us, v, vs, rfl, hus, hv⟩
        · rw [heq]
          exact hrecognize
        · have hvlink : v.IsLink := by
            obtain ⟨other, hother⟩ := Option.isSome_iff_exists.1 hv
            obtain ⟨l, hl, hshape, -⟩ := (otherLink?_elim hother).1
            exact hlink v (by simp) l hl hshape
          rw [flatMap_append, flatMap_cons] at hrecognize ⊢
          rw [hus]
          refine recognize_relink (links_relink hv _) (hvlink.links _) hne
            (fun hnil => ?_) hrecognize
          have himages : ∀ u ∈ us, u.image ≠ [] := fun u hu =>
            image_ne_nil_of_mem (hxs.symm ▸ mem_append_left _ hu)
          obtain rfl : us = [] :=
            eq_nil_iff_forall_not_mem.2 fun u hu => himages u hu (flatMap_eq_nil_iff.1 hnil u hu)
          exact hafter.rel hv
    have hne' : (x.relinkAt chosen p').image ≠ [] := by
      intro hnil
      rw [hnil] at hcut
      exact absurd (recognize_elim hcut).2.1 (Nat.lt_irrefl 0)
    have hpiece : ⟨(x.relinkAt chosen p').shape, (x.relinkAt chosen p').image, p'⟩ =
        x.relinkAt chosen p' := by
      rw [relinkAt]
      split <;> rfl
    rw [flatMap_cons, ← x.image_relinkAt p', piecesFrom_of_recognize hne' hcut, relinkFrom, hrest,
      Piece.next, x.first_relinkAt, hpiece]

theorem respells_relinkAt {x : Piece}
    (hlink : ∀ k : Kind, k.isLink = true → x.shape = .token k → x.IsLink) {p' : Position}
    (hline : x.first.line = p'.line) : x.Respells (x.relinkAt chosen p') := by
  refine ⟨by rw [x.first_relinkAt, hline], ?_, ?_⟩
  · rw [Piece.next, Piece.next, x.first_relinkAt, relinkAt]
    split
    · next other hother =>
      obtain ⟨l, -, hshape, -⟩ := (otherLink?_elim hother).1
      rw [hshape]
      exact hline
    · exact Lexer.line_after_congr hline _ _
  · rw [relinkAt]
    split
    · next other hother =>
      obtain ⟨⟨l, hl, hshape, -⟩, hk⟩ := otherLink?_elim hother
      refine .inr ⟨hlink l hl hshape, ?_⟩
      rcases hk with ⟨hk, hs⟩ | ⟨hk, hs⟩
      · exact .inr ⟨congrArg Shape.token hk, hs⟩
      · exact .inl ⟨congrArg Shape.token hk, hs⟩
    · exact .inl ⟨rfl, rfl⟩

open Lexer in
/-- **Other separators leave all pieces on their lines.** -/
theorem forall₂_relinkFrom {p p' : Position} {s : List Char} {q : List Piece}
    (h : piecesFrom p 0 s = q)
    (hlink : ∀ x ∈ q, ∀ k : Kind, k.isLink = true → x.shape = .token k → x.IsLink)
    (hline : p.line = p'.line) : Forall₂ Respells q (relinkFrom chosen p' q) := by
  induction q generalizing p p' s with
  | nil => exact .nil
  | cons x xs ih =>
    obtain ⟨hx, hlink⟩ := forall_mem_cons.1 hlink
    have hfirst : x.first = p := by
      have hlaid := laid_piecesFrom p s
      rw [h] at hlaid
      exact hlaid.1
    have hone : x.Respells (x.relinkAt chosen p') := respells_relinkAt hx (by rw [hfirst, hline])
    exact .cons hone (ih (piecesFrom_eq_cons h).2.2.1 hlink hone.next)

end Relinked

end MessageSchema
