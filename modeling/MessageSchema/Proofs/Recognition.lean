/-
  What is recognized at the front of a text.

  A text whose comments are blanked out looks the same to whatever stands before
  them: it is the same up to the first comment, and there is a blank in place of its
  slash.
-/
import MessageSchema.Proofs.Derivations
import MessageSchema.Proofs.Spelling

namespace MessageSchema

open List Option Numeral

namespace Lexer

variable {rest x : List Char} {k : CommentKind} {c : Char} {s rest' : List Char} {n : Nat}

/-! ## Texts that look the same -/

/-- Two texts that are the same up to a comment of the first, in whose place the second
    has a blank. -/
inductive Agree : List Char → List Char → Prop
  | nil : Agree [] []
  | slash {s s'} : Agree ('/' :: s) (' ' :: s')
  | cons {c s s'} : Agree s s' → Agree (c :: s) (c :: s')

namespace Agree

variable {s s' : List Char}

theorem append (h : Agree s s') (x : List Char) : Agree (x ++ s) (x ++ s') := by
  induction x with
  | nil => exact h
  | cons c x ih => exact .cons ih

theorem head?_eq (h : Agree s s') {c : Char} (hslash : c ≠ '/') (hblank : c ≠ ' ') :
    s.head? = some c ↔ s'.head? = some c := by
  cases h with
  | nil => exact Iff.rfl
  | slash => simp [hslash.symm, hblank.symm]
  | cons _ => exact Iff.rfl

/-- What has no blank does not tell the two apart. -/
theorem prefix_of (h : Agree s s') (hblank : ' ' ∉ x) (hx : x <+: s') : x <+: s := by
  induction h generalizing x with
  | nil => exact hx
  | slash =>
    cases x with
    | nil => exact nil_prefix
    | cons c x => exact absurd (mem_cons.2 (.inl (cons_prefix_cons.1 hx).1.symm)) hblank
  | cons _ ih =>
    cases x with
    | nil => exact nil_prefix
    | cons c x =>
      obtain ⟨rfl, htail⟩ := cons_prefix_cons.1 hx
      exact cons_prefix_cons.2 ⟨rfl, ih (fun hmem => hblank (mem_cons_of_mem c hmem)) htail⟩

theorem numeralLength_le (h : Agree s s') : Numeral.length s' ≤ Numeral.length s :=
  length_mono fun _ hn =>
    h.prefix_of (fun hmem => absurd (Number.isChar_of_mem hmem) (by decide)) hn

end Agree

/-! ## Lengths -/

variable {shape : Shape} {r : Shape × Nat}

/-- A quoted text ends with its quote, whatever follows. -/
theorem quotedLength_take (h : quotedLength s = some n) :
    n ≤ s.length ∧ ∀ t, quotedLength (s.take n ++ t) = some n := by
  obtain ⟨q, rest, hq, rfl, rfl⟩ := exists_quotable h
  refine ⟨by simp, fun t => ?_⟩
  rw [take_length_add_append, take_succ_cons, take_zero, append_assoc]
  exact quotedLength_append hq t

/-- A block comment ends with its slash, whatever follows. -/
theorem blockLength_take (h : blockLength s = some n) :
    2 ≤ n ∧ n ≤ s.length ∧ (s.take n).getLast? = some '/' ∧
      ∀ t, blockLength (s.take n ++ t) = some n := by
  fun_induction blockLength s generalizing n with
  | case1 => cases h
  | case2 s =>
    cases h
    exact ⟨Nat.le_refl 2, by simp, rfl, fun t => rfl⟩
  | case3 c s hne ih =>
    obtain ⟨m, hm, rfl⟩ := map_eq_some_iff.1 h
    obtain ⟨htwo, hle, hlast, htake⟩ := ih hm
    obtain ⟨k, rfl⟩ : ∃ k, m = k + 1 := ⟨m - 1, by omega⟩
    refine ⟨by omega, by simpa using hle, ?_, fun t => ?_⟩
    · rw [take_succ_cons, getLast?_cons, hlast]
      rfl
    · rw [take_succ_cons, cons_append, blockLength, htake]
      · rfl
      · intro u hc heq
        cases s with
        | nil => simp at hle
        | cons d s =>
          rw [take_succ_cons, cons_append] at heq
          obtain ⟨rfl, -⟩ := cons.inj heq
          exact hne s hc rfl

/-! ## Comments -/

/-- A comment before the text `rest`. -/
inductive CommentText (rest : List Char) : CommentKind → List Char → Prop
  | doc {y} : (∀ c ∈ y, isLineChar c = true) → (∀ c ∈ rest.head?, isLineChar c = false) →
      CommentText rest .doc ('/' :: '/' :: '/' :: y)
  | line {y} : (∀ c ∈ y, isLineChar c = true) → (∀ c ∈ rest.head?, isLineChar c = false) →
      (y ++ rest).head? ≠ some '/' → CommentText rest .line ('/' :: '/' :: y)
  | block {y} : blockLength y = some y.length → CommentText rest .block ('/' :: '*' :: y)

theorem CommentText.recognize_eq (h : CommentText rest k x) :
    recognize (x ++ rest) = some (.comment k, x.length) := by
  cases h with
  | @doc y hy hrest => simp [recognize, takeWhile_append_of_head hy hrest]
  | @line y hy hrest hslash =>
    have htake := takeWhile_append_of_head hy hrest
    rw [cons_append, cons_append]
    generalize hs : y ++ rest = s at hslash htake
    cases s with
    | nil => simpa [recognize] using htake
    | cons d s =>
      have hd : d ≠ '/' := fun hd => hslash (congrArg some hd)
      simp [recognize, hd, htake]
  | @block y hy =>
    have htake := (blockLength_take hy).2.2.2 rest
    rw [take_length] at htake
    simp [recognize, htake]

theorem head?_dropWhile_isLineChar (s : List Char) :
    ∀ c ∈ (s.dropWhile isLineChar).head?, isLineChar c = false := by
  intro c hc
  have h := head?_dropWhile_not isLineChar s
  rw [hc] at h
  simpa using h

/-- A quoted text, a number or a word is a token, within the text. -/
theorem recognizeWord_elim (h : recognizeWord c s = some (shape, n)) :
    (∃ k, shape = .token k) ∧ 0 < n ∧ n ≤ s.length + 1 := by
  unfold recognizeWord at h
  split at h
  · obtain ⟨m, hm, hmap⟩ := map_eq_some_iff.1 h
    cases hmap
    exact ⟨⟨_, rfl⟩, Nat.succ_pos m, Nat.succ_le_succ (quotedLength_take hm).1⟩
  · split at h
    · next hlength =>
      cases h
      exact ⟨⟨_, rfl⟩, hlength, length_le_length (c :: s)⟩
    · split at h
      · cases h
        exact ⟨⟨_, rfl⟩, Nat.succ_pos _, Nat.succ_le_succ (List.takeWhile_prefix _).length_le⟩
      · cases h

/-- What is recognized is a part of the text, and no stray run. -/
theorem recognize_elim (h : recognize s = some (shape, n)) :
    shape ≠ .stray ∧ 0 < n ∧ n ≤ s.length := by
  unfold recognize at h
  split at h
  · cases h
  · cases h
    simp
  · cases h
    simp
  · next t =>
    cases h
    simpa using (List.takeWhile_prefix isLineChar (l := t)).length_le
  · next t _ =>
    cases h
    simpa using (List.takeWhile_prefix isLineChar (l := t)).length_le
  · obtain ⟨m, hm, hmap⟩ := map_eq_some_iff.1 h
    cases hmap
    simpa using (blockLength_take hm).2.1
  · cases h
    simp
  · next t _ _ _ _ _ _ =>
    split at h
    · cases h
      simpa using (List.takeWhile_prefix isGap (l := t)).length_le
    · split at h
      · cases h
        simp
      · obtain ⟨⟨k, rfl⟩, hlength⟩ := recognizeWord_elim h
        exact ⟨by simp, hlength⟩

theorem isGap_of_recognize (h : recognize (x ++ rest) = some (.blank, x.length)) :
    ∀ c ∈ x, isGap c = true := by
  unfold recognize at h
  split at h
  · cases h
  · simp at h
  · simp at h
  · simp at h
  · simp at h
  · obtain ⟨m, -, hmap⟩ := map_eq_some_iff.1 h
    simp at hmap
  · simp at h
  · next c t _ _ _ _ _ _ heq =>
    split at h
    · next hgap =>
      obtain ⟨-, hn⟩ := Prod.mk.inj (some.inj h)
      have happend : x ++ rest = (c :: t.takeWhile isGap) ++ t.dropWhile isGap := by
        rw [heq, cons_append, takeWhile_append_dropWhile]
      obtain ⟨rfl, -⟩ := append_inj happend (by simp [← hn])
      exact forall_mem_cons.2 ⟨hgap, fun d hd => mem_takeWhile_imp hd⟩
    · split at h
      · simp at h
      · obtain ⟨k, hk⟩ := (recognizeWord_elim h).1
        cases hk

theorem lineEnd_of_recognize (h : recognize (x ++ rest) = some (.lineEnd, x.length)) :
    x = ['\n'] ∨ x = ['\r', '\n'] := by
  unfold recognize at h
  split at h
  · cases h
  · next t heq =>
    obtain ⟨-, hn⟩ := Prod.mk.inj (some.inj h)
    exact .inl (append_inj (show x ++ rest = ['\n'] ++ t from heq) hn.symm).1
  · next t heq =>
    obtain ⟨-, hn⟩ := Prod.mk.inj (some.inj h)
    exact .inr (append_inj (show x ++ rest = ['\r', '\n'] ++ t from heq) hn.symm).1
  · simp at h
  · simp at h
  · obtain ⟨m, -, hmap⟩ := map_eq_some_iff.1 h
    simp at hmap
  · simp at h
  · split at h
    · simp at h
    · split at h
      · simp at h
      · obtain ⟨k, hk⟩ := (recognizeWord_elim h).1
        cases hk

theorem commentText_of_recognize (h : recognize (x ++ rest) = some (.comment k, x.length)) :
    CommentText rest k x := by
  unfold recognize at h
  split at h
  · cases h
  · simp at h
  · simp at h
  · next s heq =>
    obtain ⟨hk, hn⟩ := Prod.mk.inj (some.inj h)
    obtain rfl := Shape.comment.inj hk
    have happend : x ++ rest = ('/' :: '/' :: '/' :: s.takeWhile isLineChar) ++
        s.dropWhile isLineChar := by
      rw [heq, cons_append, cons_append, cons_append, takeWhile_append_dropWhile]
    obtain ⟨rfl, rfl⟩ := append_inj happend (by simp [← hn])
    exact .doc (fun c hc => mem_takeWhile_imp hc) (head?_dropWhile_isLineChar s)
  · next s hslash heq =>
    obtain ⟨hk, hn⟩ := Prod.mk.inj (some.inj h)
    obtain rfl := Shape.comment.inj hk
    have happend : x ++ rest = ('/' :: '/' :: s.takeWhile isLineChar) ++
        s.dropWhile isLineChar := by
      rw [heq, cons_append, cons_append, takeWhile_append_dropWhile]
    obtain ⟨rfl, rfl⟩ := append_inj happend (by simp [← hn])
    refine .line (fun c hc => mem_takeWhile_imp hc) (head?_dropWhile_isLineChar s) ?_
    rw [takeWhile_append_dropWhile]
    intro hhead
    obtain ⟨t, rfl⟩ := head?_eq_some_iff.1 hhead
    exact hslash t rfl
  · next s heq =>
    obtain ⟨m, hm, hmap⟩ := map_eq_some_iff.1 h
    obtain ⟨hk, hn⟩ := Prod.mk.inj hmap
    obtain rfl := Shape.comment.inj hk
    obtain ⟨-, hle, -, htake⟩ := blockLength_take hm
    have happend : x ++ rest = ('/' :: '*' :: s.take m) ++ s.drop m := by
      rw [heq, cons_append, cons_append, take_append_drop]
    have hlength : (s.take m).length = m := length_take_of_le hle
    obtain ⟨rfl, rfl⟩ := append_inj happend (by simp [← hn, hlength])
    refine .block ?_
    rw [hlength]
    simpa using htake []
  · simp at h
  · split at h
    · simp at h
    · split at h
      · simp at h
      · obtain ⟨k, hk⟩ := (recognizeWord_elim h).1
        cases hk

theorem Agree.head?_eq_of_ne {s' : List Char} (h : Agree s s') (hslash : s.head? ≠ some '/') :
    s'.head? = s.head? := by
  cases h with
  | nil => rfl
  | slash => exact absurd rfl hslash
  | cons _ => rfl

theorem CommentText.exists_cons (h : CommentText rest k x) : ∃ y, x = '/' :: y := by
  cases h <;> exact ⟨_, rfl⟩

theorem CommentText.isLineChar_head (h : CommentText rest k x) (hlast : x.getLast? = some '\\') :
    ∀ c ∈ rest.head?, isLineChar c = false := by
  cases h with
  | doc _ hend => exact hend
  | line _ hend _ => exact hend
  | @block y hy =>
    have hslash := (blockLength_take hy).2.2.1
    rw [take_length] at hslash
    rw [getLast?_cons, getLast?_cons, hslash] at hlast
    cases hlast

theorem CommentText.of_agree (h : CommentText rest k x) (hrest : Agree rest rest') :
    CommentText rest' k x := by
  have hsame : (∀ c ∈ rest.head?, isLineChar c = false) → rest'.head? = rest.head? := fun hend =>
    hrest.head?_eq_of_ne fun hhead => by cases hend '/' hhead
  cases h with
  | doc hy hend => exact .doc hy (by rw [hsame hend]; exact hend)
  | @line y hy hend hslash =>
    refine .line hy (by rw [hsame hend]; exact hend) ?_
    rw [head?_append] at hslash ⊢
    rwa [hsame hend]
  | block hy => exact .block hy

/-- **A comment is recognized** whatever text that looks the same follows. -/
theorem recognize_comment_of_agree (h : recognize (x ++ rest) = some (.comment k, x.length))
    (hrest : Agree rest rest') : recognize (x ++ rest') = some (.comment k, x.length) :=
  ((commentText_of_recognize h).of_agree hrest).recognize_eq

/-! ## Tokens -/

theorem recognizeWord_start (h : recognizeWord c s = some r) :
    (c == '"' || c == '-' || isDigit c || isNameStart c) = true := by
  unfold recognizeWord at h
  split at h
  · next hquote => simp [hquote]
  · split at h
    · next hlength =>
      by_contra hstart
      simp only [Bool.or_eq_true, not_or, Bool.not_eq_true] at hstart
      rw [numeralLength_eq_zero (by simpa using hstart.1.1.2) hstart.1.2] at hlength
      exact absurd hlength (Nat.lt_irrefl 0)
    · split at h
      · next hname => simp [hname]
      · cases h

/-- A text with which a token does not go on. -/
structure Ends (w z : List Char) : Prop where
  colon : w = [':'] → z.head? ≠ some ':'
  name : (∀ c ∈ w.head?, isNameStart c = true) → ∀ c ∈ z.head?, isNameChar c = false
  number : Numeral.length (w ++ z) ≤ w.length

theorem head_of_length_takeWhile {p : Char → Bool} {w y : List Char}
    (h : ((w ++ y).takeWhile p).length = w.length) :
    (∀ c ∈ w, p c = true) ∧ ∀ c ∈ y.head?, p c = false := by
  obtain ⟨hw, hy⟩ := append_inj ((takeWhile_append_dropWhile (p := p) (l := w ++ y))) h
  refine ⟨fun c hc => mem_takeWhile_imp (hw ▸ hc), fun c hc => ?_⟩
  have hnot := head?_dropWhile_not p (w ++ y)
  rw [hy, hc] at hnot
  simpa using hnot

theorem not_mem_markers_of_recognizeWord (h : recognizeWord c s = some r) : c ∉ markers :=
  not_mem_of_any (p := fun c => c == '"' || c == '-' || isDigit c || isNameStart c) (by decide)
    (recognizeWord_start h)

theorem ends_of_recognize {w y : List Char} (hw : w ≠ []) {k : Kind}
    (h : recognize (w ++ y) = some (.token k, w.length)) : Ends w y := by
  refine ⟨?_, ?_, ?_⟩
  · rintro rfl hhead
    rw [singleton_append, recognize_colon, if_pos hhead] at h
    simp at h
  · intro hstart
    obtain ⟨c, w, rfl⟩ := exists_cons_of_ne_nil hw
    rw [cons_append, recognize_name (hstart c rfl)] at h
    exact (head_of_length_takeWhile (Nat.succ.inj (Prod.mk.inj (some.inj h)).2)).2
  · rcases Nat.eq_zero_or_pos (Numeral.length (w ++ y)) with hzero | hpos
    · rw [hzero]
      exact Nat.zero_le _
    · obtain ⟨n, rest, hchars, -⟩ := Numeral.exists_number hpos
      rw [hchars] at h hpos ⊢
      rw [n.recognize_append hpos] at h
      exact (Prod.mk.inj (some.inj h)).2.le

/-- **A token is recognized** before any text with which it does not go on. -/
theorem recognize_token_of_ends {w y z : List Char} (hw : w ≠ []) {k : Kind}
    (h : recognize (w ++ y) = some (.token k, w.length)) (hz : Ends w z) :
    recognize (w ++ z) = some (.token k, w.length) := by
  obtain ⟨c, w, rfl⟩ := exists_cons_of_ne_nil hw
  rw [cons_append] at h ⊢
  rcases recognize_token h with ⟨rfl, hn, r, heq⟩ | ⟨hmark, hn⟩ | hword
  · obtain ⟨d, rfl⟩ := length_eq_one_iff.1 (Nat.succ.inj hn)
    rw [singleton_append] at heq
    obtain ⟨rfl, htail⟩ := cons.inj heq
    obtain ⟨rfl, -⟩ := cons.inj htail
    rfl
  · obtain rfl := length_eq_zero_iff.1 (Nat.succ.inj hn)
    by_cases hcolon : c = ':'
    · subst hcolon
      obtain rfl : Kind.colon = k := some.inj hmark
      rw [nil_append, recognize_colon, if_neg (hz.colon rfl)]
      rfl
    · exact recognize_punctuation hcolon hmark _
  · by_cases hname : isNameStart c = true
    · rw [recognize_name hname] at h ⊢
      obtain ⟨hall, hhead⟩ := head_of_length_takeWhile (Nat.succ.inj (Prod.mk.inj (some.inj h)).2)
      rw [takeWhile_append_of_head hall hhead] at h
      rw [takeWhile_append_of_head hall (hz.name fun d hd => some.inj hd ▸ hname)]
      exact h
    · rw [recognize_of_not_mem_markers (not_mem_markers_of_recognizeWord hword)]
      unfold recognizeWord at hword ⊢
      split at hword
      · next hquote =>
        obtain ⟨n, hn, hmap⟩ := map_eq_some_iff.1 hword
        obtain ⟨hk, hlength⟩ := Prod.mk.inj hmap
        obtain rfl : n = w.length := Nat.succ.inj hlength
        have htake := (quotedLength_take hn).2 z
        rw [take_left] at htake
        rw [if_pos hquote, htake, ← hk]
        rfl
      · next hquote =>
        split at hword
        · next hpos =>
          obtain ⟨hk, hlength⟩ := Prod.mk.inj (some.inj hword)
          obtain ⟨n, rest, hchars, hnumber⟩ := exists_number hpos
          obtain ⟨hn, -⟩ :=
            append_inj (show (c :: w) ++ y = n.chars ++ rest from hchars) (by rw [hnumber, hlength])
          have hle := n.length_le z
          rw [← hn] at hle
          have heq : Numeral.length (c :: (w ++ z)) = (c :: w).length :=
            Nat.le_antisymm hz.number hle
          rw [if_neg hquote, heq, if_pos (length_pos_iff.2 hw), ← hk]
        · cases hword

theorem Ends.of_agree {w : List Char} (h : Ends w rest) (hrest : Agree rest rest') :
    Ends w rest' where
  colon hw := fun hhead => h.colon hw ((hrest.head?_eq (by decide) (by decide)).2 hhead)
  name hw := by
    have hname := h.name hw
    cases hrest with
    | nil => exact hname
    | slash =>
      rintro c hc
      cases hc
      decide
    | cons _ => exact hname
  number := (hrest.append w).numeralLength_le.trans h.number

/-- **A token is recognized** whatever text that looks the same follows. -/
theorem recognize_token_of_agree (hx : x ≠ []) {k : Kind}
    (h : recognize (x ++ rest) = some (.token k, x.length)) (hrest : Agree rest rest') :
    recognize (x ++ rest') = some (.token k, x.length) :=
  recognize_token_of_ends hx h ((ends_of_recognize hx h).of_agree hrest)

/-! ## Stray characters -/

/-- A text with blanks in place of some characters that end no line.  A line end after
    a backslash that stays stays there; what follows a blanked backslash is blanked
    too, or ends a line. -/
inductive Faded : List Char → List Char → Prop
  | nil : Faded [] []
  | keep {c s s'} : (c = '\\' → ∀ d ∈ s.head?, Text.isLineEnd d = true → s'.head? = some d) →
    Faded s s' → Faded (c :: s) (c :: s')
  | blank {c s s'} : isLineChar c = true →
      (c = '\\' → ∀ d ∈ s.head?, isLineChar d = true → Text.isLineEnd d = false ∧
      s'.head? = some ' ') → Faded s s' → Faded (c :: s) (' ' :: s')

theorem blockLength_cons (c : Char) (s : List Char) : blockLength (c :: s) =
    if c = '*' ∧ s.head? = some '/' then some 2 else (blockLength s).map (· + 1) := by
  cases s with
  | nil => simp [blockLength]
  | cons d s =>
    by_cases h : c = '*' ∧ d = '/'
    · obtain ⟨rfl, rfl⟩ := h
      rfl
    · rw [if_neg fun hclose => h ⟨hclose.1, some.inj hclose.2⟩, blockLength]
      rintro t hc heq
      exact h ⟨hc, (cons.inj heq).1⟩

theorem quotedLength_step (hquote : c ≠ '"') (hescape : c ≠ '\\') (hline : isLineChar c = true)
    (s : List Char) :
    quotedLength (c :: s) = (quotedLength s).map (· + 1) := by
  simp [quotedLength, hquote, hescape, hline]

theorem quotedLength_end (hline : isLineChar c = false) (s : List Char) :
    quotedLength (c :: s) = none := by
  have hquote : c ≠ '"' := by rintro rfl; cases hline
  have hescape : c ≠ '\\' := by rintro rfl; cases hline
  simp [quotedLength, hquote, hescape, hline]

namespace Faded

variable {s s' : List Char}

theorem head?_eq (h : Faded s s') {c : Char} (hc : c ≠ ' ') (hs' : s'.head? = some c) :
    s.head? = some c := by
  cases h with
  | nil => exact hs'
  | keep _ _ => exact hs'
  | blank _ _ _ => exact absurd (some.inj hs').symm hc

theorem blockLength_eq_none (h : Faded s s') (hs : blockLength s = none) :
    blockLength s' = none := by
  induction h with
  | nil => rfl
  | @keep c s s' _ h ih =>
    rw [blockLength_cons] at hs ⊢
    split at hs
    · cases hs
    · next hclose =>
      rw [if_neg fun ⟨hc, hhead⟩ => hclose ⟨hc, h.head?_eq (by decide) hhead⟩,
        ih (map_eq_none_iff.1 hs)]
      rfl
  | @blank c s s' _ _ h ih =>
    rw [blockLength_cons] at hs ⊢
    split at hs
    · cases hs
    · rw [if_neg fun hclose => absurd hclose.1 (by decide), ih (map_eq_none_iff.1 hs)]
      rfl

/-- **What is not closed as a quoted text is not closed with blanks in it.** -/
theorem quotedLength_eq_none (h : Faded s s') (hs : quotedLength s = none) :
    quotedLength s' = none := by
  have hblank : ∀ t, quotedLength t = none → quotedLength (' ' :: t) = none := fun t ht => by
    rw [quotedLength_step (by decide) (by decide) rfl, ht]
    rfl
  -- a backslash takes two characters at once
  induction hn : s.length using Nat.strongRecOn generalizing s s' with
  | _ n ih =>
    cases h with
    | nil => rfl
    | @keep c s s' hkeep h =>
      by_cases hescape : c = '\\'
      · subst hescape
        cases h with
        | nil => rfl
        | @keep d t t' _ h =>
          rw [quotedLength] at hs ⊢
          split
          · rfl
          · next hend =>
            rw [if_neg hend] at hs
            rw [ih t.length (by rw [← hn, length_cons, length_cons]; omega) h
              (map_eq_none_iff.1 hs) rfl]
            rfl
        | @blank d t t' hline _ h =>
          rw [quotedLength] at hs ⊢
          have hend : ¬ Text.isLineEnd d = true := fun hend => by
            obtain rfl : ' ' = d := some.inj (hkeep rfl d rfl hend)
            cases hend
          rw [if_neg hend] at hs
          rw [ih t.length (by rw [← hn, length_cons, length_cons]; omega) h
            (map_eq_none_iff.1 hs) rfl]
          rfl
      · by_cases hline : isLineChar c = true
        · by_cases hquote : c = '"'
          · subst hquote
            simp [quotedLength] at hs
          · rw [quotedLength_step hquote hescape hline] at hs ⊢
            rw [ih s.length (by simp [← hn]) h (map_eq_none_iff.1 hs) rfl]
            rfl
        · exact quotedLength_end (by simpa using hline) s'
    | @blank c s s' hline hnext h =>
      refine hblank s' ?_
      by_cases hescape : c = '\\'
      · subst hescape
        cases h with
        | nil => rfl
        | @keep d t t' _ h =>
          by_cases hd : isLineChar d = true
          · obtain ⟨hend, hhead⟩ := hnext rfl d rfl hd
            obtain rfl : d = ' ' := some.inj hhead
            rw [quotedLength, if_neg (by simp [hend])] at hs
            exact hblank t'
              (ih t.length (by rw [← hn, length_cons, length_cons]; omega) h
              (map_eq_none_iff.1 hs) rfl)
          · exact quotedLength_end (by simpa using hd) t'
        | @blank d t t' hd _ h =>
          obtain ⟨hend, -⟩ := hnext rfl d rfl hd
          rw [quotedLength, if_neg (by simp [hend])] at hs
          exact hblank t'
            (ih t.length (by rw [← hn, length_cons, length_cons]; omega) h
            (map_eq_none_iff.1 hs) rfl)
      · by_cases hquote : c = '"'
        · subst hquote
          simp [quotedLength] at hs
        · rw [quotedLength_step hquote hescape hline] at hs
          exact ih s.length (by simp [← hn]) h (map_eq_none_iff.1 hs) rfl

end Faded

theorem recognizeWord_eq_none_of_faded {s' : List Char} (h : recognizeWord c s = none)
    (hagree : Agree s s') (hfaded : Faded s s') : recognizeWord c s' = none := by
  unfold recognizeWord at h ⊢
  split at h
  · next hquote =>
    rw [if_pos hquote, hfaded.quotedLength_eq_none (map_eq_none_iff.1 h)]
    rfl
  · next hquote =>
    rw [if_neg hquote]
    split at h
    · cases h
    · next hlength =>
      rw [if_neg fun hpos => hlength (Nat.lt_of_lt_of_le hpos hagree.cons.numeralLength_le)]
      split at h
      · cases h
      · next hname => rw [if_neg hname]

/-- **What starts no piece starts none with blanks after it.** -/
theorem recognize_eq_none_of_faded {s' : List Char} (h : recognize (c :: s) = none)
    (hagree : Agree s s') (hfaded : Faded s s') : recognize (c :: s') = none := by
  by_cases hspecial : c ∈ ['\n', '\r', '/', ':']
  · simp only [mem_cons, not_mem_nil, or_false] at hspecial
    rcases hspecial with rfl | rfl | rfl | rfl
    · cases h
    · have hhead := hagree.head?_eq (c := '\n') (by decide) (by decide)
      rw [recognize_return] at h ⊢
      simp only [← hhead]
      exact h
    · by_cases hslash : s.head? = some '/'
      · obtain ⟨t, rfl⟩ := head?_eq_some_iff.1 hslash
        cases t with
        | nil => cases h
        | cons d t => by_cases hd : d = '/' <;> simp [recognize, hd] at h
      · have hhead := hagree.head?_eq_of_ne hslash
        by_cases hstar : s.head? = some '*'
        · obtain ⟨t, rfl⟩ := head?_eq_some_iff.1 hstar
          obtain ⟨t', rfl⟩ := head?_eq_some_iff.1 hhead
          cases hfaded with
          | keep _ hfaded =>
            rw [recognize] at h ⊢
            rw [hfaded.blockLength_eq_none (map_eq_none_iff.1 h)]
            rfl
        · exact recognize_slash (hhead ▸ hslash) (hhead ▸ hstar)
    · rw [recognize_colon] at h
      split at h <;> cases h
  · by_cases hgap : isGap c = true
    · rw [recognize_gap hgap] at h
      cases h
    · rw [Bool.not_eq_true] at hgap
      cases hmark : punctuation? c with
      | some k =>
        rw [recognize_punctuation (fun hc => hspecial (by simp [hc])) hmark] at h
        cases h
      | none =>
        rw [recognize_eq_recognizeWord hspecial hgap hmark] at h ⊢
        exact recognizeWord_eq_none_of_faded h hagree hfaded

end Lexer

end MessageSchema
