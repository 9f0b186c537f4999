/-
  Comments that carry no meaning.

  A comment is a *remark* if it stands outside the defaults of fields, which are kept
  as they are written.  A text with blanks in place of its remarks is compiled to the
  same models, notes apart, or neither text is compiled.
-/
import MessageSchema.Proofs.Blanking
import MessageSchema.Proofs.Rereading

namespace MessageSchema

open List Option Lexer Piece Text Draft

/-! ## Remarks -/

/-- Whether a comment stands between the first and the last token of a tree. -/
def Tree.surrounds (t : Tree) (c : Comment) : Bool :=
  match t.tokens.head?, t.tokens.getLast? with
  | some first, some last => first.first.offset ≤ c.first.offset && c.first.offset ≤
    last.first.offset
  | _, _ => false

/-- Whether a comment of a text stands outside all defaults.  A text that is not read has
    none. -/
def isRemark (text : String) (c : Comment) : Bool :=
  match (Machine.parse .strict (Scan.ofText text).tokens).tree with
  | some t => (t.parts .default).all fun d => !d.surrounds c
  | none => true

/-- A text with blanks in place of its remarks; those that are not plain stay. -/
def withoutRemarks (text : String) : String :=
  String.ofList (blankComments (isRemark text) text.toList)

example : withoutRemarks "/*a*/message M\x7b\x7d//b\n" = "     message M\x7b\x7d   \n" :=
  by decide +kernel

/-! ## Tokens and their new places -/

/-- What is made of a piece, and of the piece at the same index among others. -/
def Moved {α : Type} (f : Piece → Option α) (q q' : List Piece) (t t' : α) : Prop :=
  ∃ (i : Nat) (x x' : Piece), q[i]? = some x ∧ q'[i]? = some x' ∧ f x = some t ∧ f x' = some t'

theorem forall₂_moved {α : Type} {f : Piece → Option α} {q q' : List Piece}
    {P : Piece → Piece → Prop} (h : Forall₂ P q q')
    (hP : ∀ x x', P x x' → (f x).isSome = (f x').isSome) :
    Forall₂ (Moved f q q') (q.filterMap f) (q'.filterMap f) := by
  have hindexed : Forall₂ (fun x x' => ∃ i : Nat, q[i]? = some x ∧ q'[i]? = some x' ∧
      P x x') q q' :=
    forall₂_iff_get.2 ⟨h.length_eq, fun i hx hx' =>
      ⟨i, getElem?_eq_getElem hx, getElem?_eq_getElem hx', h.get hx hx'⟩⟩
  refine rel_filterMap ?_ hindexed
  rintro x x' ⟨i, hx, hx', hone⟩
  have hsome := hP x x' hone
  cases ht : f x with
  | none =>
    rw [ht, isSome_none, eq_comm, isSome_eq_false_iff, isNone_iff_eq_none] at hsome
    rw [hsome]
    exact .none
  | some t =>
    rw [ht, isSome_some, eq_comm, isSome_iff_exists] at hsome
    obtain ⟨t', ht'⟩ := hsome
    rw [ht']
    exact .some ⟨i, x, x', hx, hx', ht, ht'⟩

section Pieces

variable {chosen : Comment → Bool}

theorem Piece.isHidden_of_token? {x : Piece} {t : Token} (h : x.token? = some t) :
    x.isHidden chosen = false := by
  obtain ⟨k, hk, -⟩ := token?_eq_some h
  rw [isHidden, comment?, hk]

theorem Piece.Fades.isSome_token? {x x' : Piece} (h : Piece.Fades chosen x x') :
    x.token?.isSome = x'.token?.isSome := by
  cases hhidden : x.isHidden chosen with
  | true =>
    obtain ⟨-, k, hk, -⟩ := isHidden_elim hhidden
    have hshape : x'.shape = .lineEnd := by rw [h.shape, if_pos hhidden]
    rw [token?, token?, hk, hshape]
  | false =>
    rw [token?, token?, h.shape_of_shown hhidden]
    cases x.shape <;> rfl

theorem Moved.alike {q q' : List Piece} (h : Forall₂ (Fades chosen) q q') {t t' : Token}
    (hmoved : Moved token? q q' t t') : t.Alike t' := by
  obtain ⟨i, x, x', hx, hx', ht, ht'⟩ := hmoved
  have hfades := forall₂_getElem? h hx hx'
  have hshown : x.isHidden chosen = false := isHidden_of_token? ht
  obtain ⟨k, hk, rfl⟩ := token?_eq_some ht
  obtain ⟨k', hk', rfl⟩ := token?_eq_some ht'
  obtain rfl : k = k' :=
    Shape.token.inj (hk.symm.trans ((hfades.shape_of_shown hshown).symm.trans hk'))
  exact ⟨rfl, congrArg String.ofList (hfades.image_of_shown hshown).symm, hfades.first, hfades.next⟩

/-! ## The text between two tokens -/

variable {q q' : List Piece} {i j : Nat} {x y : Piece}

theorem slice_eq_nil {start stop : Nat} (h : stop ≤ start) (s : List Char) :
    slice start stop s = [] := by
  rw [slice, Nat.sub_eq_zero_of_le h]
  cases hdrop : dropUnits start s with
  | nil => rfl
  | cons c t =>
    have hc := unitsOf_pos c
    rw [takeUnits, if_neg (by omega)]

theorem slice_between (hlaid : Laid .origin q) (hx : q[i]? = some x) (hy : q[j]? = some y) :
    slice x.first.offset y.next.offset (q.flatMap (·.image)) =
      ((q.drop i).take (j + 1 - i)).flatMap (·.image) := by
  by_cases hij : i ≤ j
  · have hsplit : q.take i ++ (q.drop i).take (j + 1 - i) ++ q.drop (j + 1) = q := by
      have hdrop : q.drop (j + 1) = (q.drop i).drop (j + 1 - i) := by
        rw [drop_drop]
        congr 1
        omega
      rw [hdrop, append_assoc, take_append_drop, take_append_drop]
    have hfirst : ((q.drop i).take (j + 1 - i)).head? = some x := by
      rw [head?_eq_getElem?, getElem?_take_of_lt (by omega), getElem?_drop, Nat.add_zero, hx]
    have hlast : ((q.drop i).take (j + 1 - i)).getLast? = some y := by
      have hlength : ((q.drop i).take (j + 1 - i)).length = j + 1 - i := by
        have hlt : j < q.length := (List.getElem?_eq_some_iff.1 hy).1
        rw [length_take, length_drop]
        omega
      rw [getLast?_eq_getElem?, hlength, getElem?_take_of_lt (by omega), getElem?_drop,
        show i + (j + 1 - i - 1) = j by omega, hy]
    have hslice := slice_of_laid (by rw [hsplit]; exact hlaid) hfirst hlast
    rwa [hsplit] at hslice
  · rw [slice_eq_nil (next_offset_le_of_laid hlaid hy hx (by omega)), show j + 1 - i = 0 by omega]
    rfl

/-- **Pieces with the same images have the same text.** -/
theorem slice_eq (hlaid : Laid .origin q) (hlaid' : Laid .origin q') {x' y' : Piece}
    (hx : q[i]? = some x) (hy : q[j]? = some y) (hx' : q'[i]? = some x') (hy' : q'[j]? = some y')
    (himages : ∀ (n : Nat) z z', i ≤ n → n ≤ j → q[n]? = some z → q'[n]? = some z' →
      z.image = z'.image) :
    slice x.first.offset y.next.offset (q.flatMap (·.image)) =
      slice x'.first.offset y'.next.offset (q'.flatMap (·.image)) := by
  rw [slice_between hlaid hx hy, slice_between hlaid' hx' hy', flatMap_def, flatMap_def]
  congr 1
  refine ext_getElem? fun n => ?_
  rw [getElem?_map, getElem?_map]
  by_cases hn : n < j + 1 - i
  · have hj : j < q.length := (List.getElem?_eq_some_iff.1 hy).1
    have hj' : j < q'.length := (List.getElem?_eq_some_iff.1 hy').1
    have hz : q[i + n]? = some q[i + n] := getElem?_eq_getElem (by omega)
    have hz' : q'[i + n]? = some q'[i + n] := getElem?_eq_getElem (by omega)
    rw [getElem?_take_of_lt hn, getElem?_take_of_lt hn, getElem?_drop, getElem?_drop, hz, hz',
      map_some, map_some, himages _ _ _ (by omega) (by omega) hz hz']
  · rw [getElem?_take, getElem?_take, if_neg hn, if_neg hn]

theorem last_offset_succ (hx : x.image ≠ []) {κ : Type} (k : κ) :
    (x.lexeme k).last.offset + 1 = x.next.offset :=
  Nat.sub_add_cancel (Nat.zero_lt_of_lt (offset_lt_next hx))

/-- **The text of a tree stays as it is** if the pieces that it surrounds do. -/
theorem textOf_eq_of_moved (hlaid : Laid .origin q) (hlaid' : Laid .origin q')
    (himages : ∀ x ∈ q, x.image ≠ []) (himages' : ∀ x ∈ q', x.image ≠ []) {r r' : Reader}
    (htext : r.source.text.toList = q.flatMap (·.image))
    (htext' : r'.source.text.toList = q'.flatMap (·.image)) {d d' : Tree}
    (hd : Forall₂ (Moved token? q q') d.tokens d'.tokens)
    (hsame : ∀ (n : Nat) z z', q[n]? = some z → q'[n]? = some z' → d.surrounds (z.lexeme .doc) =
      true → z.image = z'.image) :
    r.textOf d = r'.textOf d' := by
  have hfirst := rel_head? hd
  have hlast := rel_getLast? hd
  simp only [Tree.surrounds] at hsame
  rw [Reader.textOf, Reader.textOf]
  generalize d.tokens.head? = a, d'.tokens.head? = a' at hfirst hsame
  generalize d.tokens.getLast? = b, d'.tokens.getLast? = b' at hlast hsame
  cases hfirst with
  | none => rfl
  | some hfirst =>
    cases hlast with
    | none => rfl
    | some hlast =>
      obtain ⟨i, x, x', hx, hx', ht, ht'⟩ := hfirst
      obtain ⟨j, y, y', hy, hy', hu, hu'⟩ := hlast
      obtain ⟨k, -, rfl⟩ := token?_eq_some ht
      obtain ⟨k', -, rfl⟩ := token?_eq_some ht'
      obtain ⟨l, -, rfl⟩ := token?_eq_some hu
      obtain ⟨l', -, rfl⟩ := token?_eq_some hu'
      dsimp only
      rw [last_offset_succ (himages y (mem_of_getElem? hy)),
        last_offset_succ (himages' y' (mem_of_getElem? hy')), htext, htext']
      refine congrArg String.ofList
        (slice_eq hlaid hlaid' hx hy hx' hy' fun n z z' hin hnj hz hz' => ?_)
      have hbefore : x.first.offset ≤ z.first.offset := first_offset_le_of_laid hlaid hx hz hin
      have hafter : z.first.offset ≤ y.first.offset := first_offset_le_of_laid hlaid hz hy hnj
      exact hsame n z z' hz hz' (by simp [lexeme, hbefore, hafter])

end Pieces

/-! ## Reading without remarks -/

section Reading

variable (text : String)

theorem fades_pieces : Forall₂ (Fades (isRemark text)) (pieces text.toList)
    (fadeFrom (isRemark text) .origin (pieces text.toList)) := forall₂_fadeFrom rfl rfl

theorem toList_withoutRemarks : (withoutRemarks text).toList =
    (fadeFrom (isRemark text) .origin (pieces text.toList)).flatMap (·.image) := by
  rw [withoutRemarks, String.toList_ofList, flatMap_image_fadeFrom]
  rfl

theorem strays_eq_nil_iff {q : List Piece} :
    q.filterMap stray? = [] ↔ ∀ x ∈ q, x.shape ≠ .stray := by
  rw [filterMap_eq_nil_iff]
  refine forall₂_congr fun x _ => ?_
  unfold stray?
  cases x.shape <;> simp

theorem strays_withoutRemarks :
    (Scan.ofText text).strays = [] ↔ (Scan.ofText (withoutRemarks text)).strays = [] := by
  have hfaded : (Scan.ofText (withoutRemarks text)).strays =
      (piecesFrom .origin 0 ((pieces text.toList).flatMap (fade (isRemark text)))).filterMap
      stray? := by
    rw [Scan.ofText, withoutRemarks, String.toList_ofList]
    rfl
  rw [hfaded]
  refine ⟨fun h => ?_, fun h => ?_⟩
  · have hno := strays_eq_nil_iff.1 h
    have hpieces : piecesFrom .origin 0 text.toList = pieces text.toList := rfl
    rw [filterMap_fadeFrom skipsGaps_stray? hpieces hno, strays_eq_nil_iff]
    intro x' hx'
    obtain ⟨i, hi⟩ := getElem?_of_mem hx'
    have hlt : i < (pieces text.toList).length := by
      rw [(fades_pieces text).length_eq]
      exact (List.getElem?_eq_some_iff.1 hi).1
    have hfades := forall₂_getElem? (fades_pieces text) (getElem?_eq_getElem hlt) hi
    rw [hfades.shape]
    split
    · simp
    · exact hno _ (getElem_mem hlt)
  · rw [Scan.ofText]
    refine strays_eq_nil_iff.2 fun x hx hstray => ?_
    exact exists_stray_fade rfl ⟨x, hx, hstray⟩ .origin h

theorem tokens_withoutRemarks (h : (Scan.ofText text).strays = []) :
    Forall₂
      (Moved token? (pieces text.toList) (fadeFrom (isRemark text) .origin (pieces text.toList)))
      (Scan.ofText text).tokens (Scan.ofText (withoutRemarks text)).tokens := by
  have hfaded : (Scan.ofText (withoutRemarks text)).tokens =
      (fadeFrom (isRemark text) .origin (pieces text.toList)).filterMap token? := by
    have hpieces : piecesFrom .origin 0 text.toList = pieces text.toList := rfl
    rw [← filterMap_fadeFrom skipsGaps_token? hpieces (strays_eq_nil_iff.1 h), Scan.ofText,
      withoutRemarks, String.toList_ofList]
    rfl
  rw [hfaded]
  exact forall₂_moved (fades_pieces text) fun _ _ hfades => hfades.isSome_token?

end Reading

/-- **A text and the text without its remarks give the same draft, notes apart**, or both none. -/
theorem Draft.both_read_withoutRemarks (file text : String) :
    Both (fun d d' => bare id d = bare id d') (read file text)
      (read file (withoutRemarks text)) := by
  have halike := fun a b (hab : Moved token? _ _ a b) => hab.alike (fades_pieces text)
  refine (Source.both_read (fun a b hab => (halike a b hab).near) file (strays_withoutRemarks text)
    (tokens_withoutRemarks text)).bind ?_
  rintro s s' ⟨hfile, htext, htext', htree, hparse⟩
  simp only [← View.draft_bare]
  refine both_ofSource _ hfile
    (Reader.rereads_of_rel (fun a b hab => (halike a b hab).rereads .bare) htree
    fun q cs ds hd hrel => ?_)
  refine Reader.similar_of_rel (fun a b hab => (halike a b hab).image) hrel (fun hdefault => ?_) rfl
  obtain rfl : q = .default := of_decide_eq_true hdefault
  have hfaded : ∀ x' ∈ fadeFrom (isRemark text) .origin (pieces text.toList), x'.image ≠ [] :=
      fun x' hx' => by
    obtain ⟨x, hx, hfades⟩ := exists_left_of_mem (fades_pieces text) hx'
    rw [hfades.image, fade]
    split
    · simpa [blankOut] using image_ne_nil hx
    · exact image_ne_nil hx
  refine textOf_eq_of_moved (laid_piecesFrom .origin _) (laid_fadeFrom .origin _)
    (fun x hx => image_ne_nil hx) hfaded ?_ ?_ hrel.tokens fun n z z' hz hz' hsurrounds => ?_
  · exact (congrArg String.toList htext).trans (flatMap_image_pieces _).symm
  · exact (congrArg String.toList htext').trans (toList_withoutRemarks text)
  · -- a hidden piece is a remark, and the default surrounds it
    refine ((forall₂_getElem? (fades_pieces text) hz hz').image_of_shown
      (Bool.eq_false_iff.2 fun hhidden => ?_)).symm
    obtain ⟨-, k, -, hremark⟩ := isHidden_elim hhidden
    rw [isRemark, hparse] at hremark
    have hout : (Tree.node .default cs).surrounds (z.lexeme k) = false := by
      simpa using all_eq_true.1 hremark _ hd
    exact absurd (hout.symm.trans hsurrounds) Bool.false_ne_true

end MessageSchema
