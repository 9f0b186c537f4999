/-
  The tokens of defaults of primitive types.

  A default is kept as the text from its first token to its last one, and only this text
  is looked at when it is read.  For numbers and truth values that is enough: a text that
  is read as one of them is one token, whatever follows it.  A text that starts and ends
  with a quote need not be one quoted text.

  * `exists_quotable`, `Lexer.kind_eq_text`: quoted texts at the front and at the end of
    one;
  * `Draft.Reader.exists_first`, `Draft.Reader.exists_last`: the first and the last token
    of a tree in its text.
-/
import MessageSchema.Proofs.Comments
import MessageSchema.Proofs.FieldTrees

namespace MessageSchema

open List Option Lexer Text

/-! ## Numbers at the front of a text -/

namespace Numeral

theorem exists_number_of_read? {s : String} {d : Decimal} (h : Decimal.read? s = some d) :
    ∃ n : Number, s.toList = n.chars := by
  rw [Decimal.read?] at h
  simp only at h
  split at h
  · cases h
  · next hrest =>
    rw [Bool.or_eq_true, not_or, Bool.not_eq_true, Bool.not_eq_true, Bool.not_eq_false'] at hrest
    obtain ⟨hempty, hnil⟩ := hrest
    obtain ⟨n, hn, -⟩ := exists_number_of_digits hempty
    rw [afterNumber, List.isEmpty_iff.1 hnil, append_nil] at hn
    exact ⟨n, hn⟩

end Numeral

/-! ## Quoted texts -/

variable {s : List Char}

theorem quotedLength_eq_iff {s rest : List Char} :
    quotedLength (s ++ '"' :: rest) = some (s.length + 1) ↔ IsQuotable s := by
  refine ⟨fun h => ?_, fun h => quotedLength_append h rest⟩
  obtain ⟨q, rest', hq, heq, hlength⟩ := exists_quotable h
  rwa [(append_inj heq (Nat.succ.inj hlength)).1]

/-- A text whose escapes are all known may stand between quotes. -/
theorem isQuotable_of_codes? {codes : List Nat} (h : codes? s = some codes) : IsQuotable s := by
  have hescape : ∀ {e c : Char}, unescape? e = some c → isLineEnd e = false := fun {e c} he => by
    unfold unescape? at he
    split at he <;> first | rfl | cases he
  have hhex : ∀ {c : Char} {n : Nat}, hexDigit? c = some n → c ≠ '"' ∧ c ≠ '\\' ∧
      isLineChar c = true := by
    intro c n hc
    refine ⟨?_, ?_, ?_⟩
    · rintro rfl; cases hc
    · rintro rfl; cases hc
    · rw [isLineChar, Bool.and_eq_true, bne_iff_ne, bne_iff_ne]
      constructor
      · rintro rfl; cases hc
      · rintro rfl; cases hc
  fun_induction codes? s generalizing codes with
  | case1 => exact .nil
  | case2 a b c d s ih =>
    obtain ⟨unit, hunit, h⟩ := bind_eq_some_iff.1 h
    obtain ⟨more, hmore, -⟩ := bind_eq_some_iff.1 h
    obtain ⟨x, hx, hunit⟩ := bind_eq_some_iff.1 hunit
    obtain ⟨y, hy, hunit⟩ := bind_eq_some_iff.1 hunit
    obtain ⟨z, hz, hunit⟩ := bind_eq_some_iff.1 hunit
    obtain ⟨u, hu, -⟩ := bind_eq_some_iff.1 hunit
    have hchar : ∀ {c : Char} {n : Nat} {t : List Char}, hexDigit? c = some n → IsQuotable t →
        IsQuotable (c :: t) := fun hc ht => .char (hhex hc).1 (hhex hc).2.1 (hhex hc).2.2 ht
    exact .escape rfl (hchar hx (hchar hy (hchar hz (hchar hu (ih hmore)))))
  | case3 e s hne ih =>
    obtain ⟨c, hc, h⟩ := bind_eq_some_iff.1 h
    obtain ⟨more, hmore, -⟩ := bind_eq_some_iff.1 h
    exact .escape (hescape hc) (ih hmore)
  | case4 => cases h
  | case5 c s _ _ hc ih =>
    obtain ⟨more, hmore, -⟩ := bind_eq_some_iff.1 h
    rw [not_or, not_or] at hc
    refine .char hc.1 hc.2.1 ?_ (ih hmore)
    rw [isLineChar, Bool.and_eq_true, bne_iff_ne, bne_iff_ne]
    constructor
    · rintro rfl; exact hc.2.2 (by decide)
    · rintro rfl; exact hc.2.2 (by decide)

namespace Lexer

/-- **What ends with a quote is a quoted text.** -/
theorem kind_eq_text {w rest : List Char} {k : Kind}
    (h : recognize (w ++ rest) = some (.token k, w.length))
    (hlast : w.getLast? = some '"') : k = .text := by
  have hmem : '"' ∈ w := mem_of_mem_getLast? hlast
  obtain ⟨c, w, rfl⟩ := exists_cons_of_ne_nil (ne_nil_of_mem hmem)
  rw [cons_append] at h
  rcases recognize_token h with ⟨-, hn, r, heq⟩ | ⟨hmark, hn⟩ | hword
  · obtain ⟨d, rfl⟩ := length_eq_one_iff.1 (Nat.succ.inj hn)
    rw [singleton_append] at heq
    obtain ⟨rfl, htail⟩ := cons.inj heq
    obtain ⟨rfl, -⟩ := cons.inj htail
    cases hlast
  · obtain rfl := length_eq_zero_iff.1 (Nat.succ.inj hn)
    cases hlast
    cases hmark
  · unfold recognizeWord at hword
    split at hword
    · obtain ⟨m, -, hmap⟩ := map_eq_some_iff.1 hword
      cases hmap
      rfl
    · split at hword
      · next hlength =>
        obtain ⟨n, tail, hchars, hn⟩ := Numeral.exists_number hlength
        have hw : (Number.chars n).length = (c :: w).length := by
          rw [hn]
          simpa using congrArg (fun o => o.map Prod.snd) hword
        rw [← cons_append] at hchars
        rw [(append_inj hchars hw.symm).1] at hmem
        exact absurd (Number.isChar_of_mem hmem) (by decide)
      · split at hword
        · next hname =>
          have hw : w = (w ++ rest).takeWhile isNameChar := by
            have hlength : ((w ++ rest).takeWhile isNameChar).length = w.length := by
              simpa using congrArg (fun o => o.map Prod.snd) hword
            have hprefix := prefix_iff_eq_take.1 (List.takeWhile_prefix isNameChar (l := w ++ rest))
            rw [hlength, take_left] at hprefix
            exact hprefix.symm
          rcases mem_cons.1 hmem with hc | hc
          · rw [← hc] at hname
            cases hname
          · rw [hw] at hc
            exact absurd (mem_takeWhile_imp hc) (by decide)
        · cases hword

end Lexer

/-! ## The tokens of a tree in their text -/

variable {tokens : List Token} {a b : Token}

theorem Margins.Ordered.eq_singleton (h : Margins.Ordered tokens) (hhead : tokens.head? = some a)
    (hlast : tokens.getLast? = some b) (heq : a.first.offset = b.first.offset) : tokens = [a] := by
  obtain ⟨rest, rfl⟩ := head?_eq_some_iff.1 hhead
  cases rest with
  | nil => rfl
  | cons c rest =>
    have hmem : b ∈ c :: rest := mem_of_mem_getLast? (by simpa using hlast)
    have hlt := (pairwise_cons.1 h).1 b hmem
    omega

theorem Margins.Ordered.offset_le (h : Margins.Ordered tokens) (hhead : tokens.head? = some a)
    (hlast : tokens.getLast? = some b) : a.first.offset ≤ b.first.offset := by
  obtain ⟨rest, rfl⟩ := head?_eq_some_iff.1 hhead
  rcases mem_cons.1 (mem_of_mem_getLast? hlast) with rfl | hmem
  · exact Nat.le_refl _
  · exact Nat.le_of_lt ((pairwise_cons.1 h).1 b hmem)

theorem exists_between {α : Type} {q : List α} {i j : Nat} {x y : α} (hx : q[i]? = some x)
    (hy : q[j]? = some y) (hij : i ≤ j) :
    ∃ before between after, q = before ++ (x :: between ++ after) ∧
      (x :: between).getLast? = some y ∧ (q.drop i).take (j + 1 - i) = x :: between ∧
        between.length = j - i := by
  obtain ⟨hi, hxi⟩ := List.getElem?_eq_some_iff.1 hx
  obtain ⟨hj, -⟩ := List.getElem?_eq_some_iff.1 hy
  have htake : (q.drop i).take (j + 1 - i) = x :: (q.drop (i + 1)).take (j - i) := by
    rw [drop_eq_getElem_cons hi, hxi, show j + 1 - i = (j - i) + 1 by omega, take_succ_cons]
  have hlength : ((q.drop (i + 1)).take (j - i)).length = j - i := by
    rw [length_take, length_drop]
    omega
  refine ⟨q.take i, (q.drop (i + 1)).take (j - i), q.drop (j + 1), ?_, ?_, htake, hlength⟩
  · rw [← htake, show j + 1 = i + (j + 1 - i) by omega, ← drop_drop, Nat.add_sub_cancel_left,
      take_append_drop, take_append_drop]
  · rw [getLast?_eq_getElem?, length_cons, hlength, ← htake, getElem?_take_of_lt (by omega),
      getElem?_drop, ← hy]
    congr 1
    omega

namespace Draft.Reader

variable {file text : String} {s : Source} (hs : Source.read file text = .ok s) {e : Tree}
  (he : e.tokens <:+: s.tokens) (hne : e.tokens ≠ [])
include hs he hne

/-- **The text of a tree is made of pieces**, from that of its first token to that of its
    last one. -/
theorem exists_pieces :
    ∃ before x between after k, pieces text.toList = before ++ (x :: between ++ after) ∧
    x.shape = .token k ∧ e.tokens.head? = some (x.lexeme k) ∧
    (∃ y l, (x :: between).getLast? = some y ∧ y.shape = .token l ∧ e.tokens.getLast? =
      some (y.lexeme l)) ∧
    ((ofSource s).textOf e).toList = (x :: between).flatMap (·.image) ∧
      (between = [] ↔ e.tokens = [x.lexeme k]) := by
  obtain ⟨-, -, hsource⟩ := Source.read_eq_ok_iff.1 hs
  have hlaid : Lexer.Laid .origin (Lexer.pieces text.toList) := Lexer.laid_piecesFrom .origin _
  have himages : ∀ x ∈ Lexer.pieces text.toList, x.image ≠ [] := fun x hx => Lexer.image_ne_nil hx
  have htokens : s.tokens = (pieces text.toList).filterMap Piece.token? := by rw [hsource]; rfl
  have hordered : Margins.Ordered e.tokens :=
    (htokens ▸ ordered_tokens hlaid himages : Margins.Ordered s.tokens).sublist he.sublist
  obtain ⟨a, hhead⟩ : ∃ a, e.tokens.head? = some a := ⟨_, head?_eq_some_head hne⟩
  obtain ⟨b, hlast⟩ : ∃ b, e.tokens.getLast? = some b := ⟨_, getLast?_eq_some_getLast hne⟩
  obtain ⟨i, x, k, hx, hxk, rfl⟩ :=
    exists_piece_of_mem (htokens ▸ he.subset (mem_of_mem_head? hhead))
  obtain ⟨j, y, l, hy, hyl, rfl⟩ :=
    exists_piece_of_mem (htokens ▸ he.subset (mem_of_mem_getLast? hlast))
  have hoffset : x.first.offset ≤ y.first.offset := hordered.offset_le hhead hlast
  have hij : i ≤ j := by
    by_contra hlt
    have hle := next_offset_le_of_laid hlaid hy hx (by omega)
    have hpos := offset_lt_next (himages y (mem_of_getElem? hy))
    omega
  have htext := textOf_eq (r := ofSource s) hlaid himages
    (by rw [ofSource, hsource]; exact (flatMap_image_pieces _).symm) hx hy hhead hlast
  obtain ⟨before, between, after, hsplit, hend, htake, hlength⟩ := exists_between hx hy hij
  refine ⟨before, x, between, after, k, hsplit, hxk, hhead, ⟨y, l, hend, hyl, hlast⟩, ?_, ?_⟩
  · rw [htext, htake, String.toList_ofList]
  · rw [← length_eq_zero_iff, hlength]
    constructor
    · intro hzero
      obtain rfl : i = j := by omega
      cases hx.symm.trans hy
      exact hordered.eq_singleton hhead hlast rfl
    · intro hsingle
      rw [hsingle] at hlast
      have heq : x.first.offset = y.first.offset := congrArg (·.first.offset) (some.inj hlast)
      by_contra hlt
      have hle := next_offset_le_of_laid hlaid hx hy (by omega)
      have hpos := offset_lt_next (himages x (mem_of_getElem? hx))
      omega

theorem exists_first : ∃ first more rest, e.tokens.head? = some first ∧
    ((ofSource s).textOf e).toList = first.image.toList ++ more ∧
    recognize (((ofSource s).textOf e).toList ++ rest) =
      some (.token first.kind, first.image.toList.length) ∧
    (more = [] ↔ e.tokens = [first]) := by
  obtain ⟨before, x, between, after, k, hpieces, hx, hhead, -, htext, hsingle⟩ :=
    exists_pieces hs he hne
  have himages : ∀ y ∈ x :: between, y.image ≠ [] := fun y hy => image_ne_nil (s := text.toList)
    (by rw [hpieces]; exact mem_append_right _ (mem_append_left _ hy))
  have himage : (x.lexeme k).image.toList = x.image := String.toList_ofList
  refine ⟨x.lexeme k, between.flatMap (·.image), after.flatMap (·.image), hhead, ?_, ?_, ?_⟩
  · rw [htext, himage, flatMap_cons]
  · rw [htext, himage, flatMap_cons, append_assoc, ← flatMap_append]
    exact recognize_of_pieces hpieces hx
  · rw [← hsingle]
    constructor
    · intro hnil
      cases between with
      | nil => rfl
      | cons y ys =>
        rw [flatMap_cons] at hnil
        exact absurd (append_eq_nil_iff.1 hnil).1 (himages y (by simp))
    · rintro rfl
      rfl

theorem exists_last : ∃ last less rest, e.tokens.getLast? = some last ∧ last.image.toList ≠ [] ∧
    ((ofSource s).textOf e).toList = less ++ last.image.toList ∧
    recognize (last.image.toList ++ rest) = some (.token last.kind, last.image.toList.length) := by
  obtain ⟨before, x, between, after, -, hpieces, -, -, ⟨y, l, hy, hyl, hlast⟩, htext, -⟩ :=
    exists_pieces hs he hne
  obtain ⟨init, hinit⟩ := getLast?_eq_some_iff.1 hy
  rw [hinit] at hpieces htext
  have hsplit : pieces text.toList = (before ++ init) ++ y :: after := by rw [hpieces]; simp
  have himage : (y.lexeme l).image.toList = y.image := String.toList_ofList
  refine ⟨y.lexeme l, init.flatMap (·.image), after.flatMap (·.image), hlast, ?_, ?_, ?_⟩
  · rw [himage]
    exact image_ne_nil (s := text.toList) (by rw [hsplit]; simp)
  · rw [htext, himage, flatMap_append, flatMap_cons, flatMap_nil, append_nil]
  · rw [himage]
    exact recognize_of_pieces hsplit hyl

theorem eq_number {n : Number} (h : ((ofSource s).textOf e).toList = n.chars) :
    ∃ t, e.tokens = [t] ∧ t.kind = .number := by
  obtain ⟨first, more, rest, -, htext, hrecognize, hsingle⟩ := exists_first hs he hne
  have hle := n.length_le rest
  rw [h, n.recognize_append (Nat.lt_of_lt_of_le n.length_pos hle)] at hrecognize
  obtain ⟨hkind, hlength⟩ := Prod.mk.inj (some.inj hrecognize)
  have hmore : more = [] := by
    rw [← length_eq_zero_iff]
    have htotal := congrArg List.length (h.symm.trans htext)
    rw [length_append] at htotal
    omega
  exact ⟨first, hsingle.1 hmore, (Shape.token.inj hkind).symm⟩

theorem eq_name {x : Identifier} (h : ((ofSource s).textOf e).toList = x.chars) :
    ∃ t, e.tokens = [t] ∧ t.kind = wordKind x.text ∧ t.image = x.text := by
  obtain ⟨first, more, rest, -, htext, hrecognize, hsingle⟩ := exists_first hs he hne
  have htake : (x.rest ++ rest).takeWhile isNameChar = x.rest ++ rest.takeWhile isNameChar :=
    takeWhile_append_of_pos x.isNameChar_rest
  rw [h, Identifier.chars, cons_append, recognize_name x.isNameStart_first, htake] at hrecognize
  obtain ⟨hkind, hlength⟩ := Prod.mk.inj (some.inj hrecognize)
  have htotal := congrArg List.length (h.symm.trans htext)
  rw [length_append] at htotal hlength
  rw [Identifier.chars, length_cons] at htotal
  have hmore : more = [] := length_eq_zero_iff.1 (by omega)
  have hnil : rest.takeWhile isNameChar = [] := length_eq_zero_iff.1 (by omega)
  rw [hmore, append_nil, h] at htext
  refine ⟨first, hsingle.1 hmore, ?_, ?_⟩
  · rw [← Shape.token.inj hkind, hnil, append_nil, Identifier.text, Identifier.chars]
  · rw [Identifier.text, htext, String.ofList_toList]

theorem eq_quoted {inner : List Char}
    (h : ((ofSource s).textOf e).toList = '"' :: (inner ++ ['"'])) :
    (∃ t, e.tokens.head? = some t ∧ t.kind = .text) ∧
    (∃ t, e.tokens.getLast? = some t ∧ t.kind = .text) ∧
      ((∃ t, e.tokens = [t]) ↔ IsQuotable inner) := by
  obtain ⟨first, more, rest, hhead, htext, hrecognize, hsingle⟩ := exists_first hs he hne
  obtain ⟨last, less, rest', hlast, himage, htext', hrecognize'⟩ := exists_last hs he hne
  rw [h, cons_append, append_assoc, singleton_append,
    recognize_of_not_mem_markers (by decide), recognizeWord, if_pos rfl] at hrecognize
  obtain ⟨m, hm, hmap⟩ := map_eq_some_iff.1 hrecognize
  obtain ⟨hkind, hlength⟩ := Prod.mk.inj hmap
  refine ⟨⟨first, hhead, (Shape.token.inj hkind).symm⟩, ⟨last, hlast, ?_⟩, ?_⟩
  · refine kind_eq_text hrecognize' ?_
    have hquote : (less ++ last.image.toList).getLast? = some '"' := by
      rw [← htext', h, ← cons_append, getLast?_concat]
    rwa [getLast?_append_of_ne_nil _ himage] at hquote
  · have htotal := congrArg List.length (h.symm.trans htext)
    simp only [length_cons, length_append, length_nil] at htotal
    rw [← @quotedLength_eq_iff _ rest, hm, some_inj]
    constructor
    · rintro ⟨t, ht⟩
      rw [ht] at hhead
      cases hhead
      rw [hsingle.2 ht, length_nil] at htotal
      omega
    · intro hquoted
      exact ⟨first, hsingle.1 (length_eq_zero_iff.1 (by omega))⟩

end Draft.Reader

/-! ## Defaults of primitive types -/

/-- The kind of the literals of a primitive type. -/
def Primitive.literalKind : Primitive → Kind
  | .string => .text
  | .int | .byte | .float => .number
  | .bool => .identifier

/-- Some tokens are one literal of a primitive type. -/
structure IsLiteral (p : Primitive) (tokens : List Token) : Prop where
  single : ∃ t, tokens = [t] ∧ t.kind = p.literalKind
  truth : p = .bool → tokens.map (·.image) = ["true"] ∨ tokens.map (·.image) = ["false"]

namespace DefaultValue

theorem exists_number_of_readInteger {text : String} {d : Decimal} (h : readInteger text = .ok d) :
    ∃ n : Number, text.toList = n.chars := by
  unfold readInteger at h
  split at h
  · next hread => exact Numeral.exists_number_of_read? hread
  · cases h

def text? : DefaultValue → Option String
  | .text t => some t
  | _ => none

theorem exists_inner_of_unquote {text value : String} (h : unquote text = .ok value) :
    ∃ inner, text.toList = '"' :: (inner ++ ['"']) ∧
      (¬ IsQuotable inner → value = String.ofList inner) := by
  unfold unquote at h
  simp only at h
  split at h
  · cases h
  · next hquoted =>
    simp only [Bool.or_eq_true, decide_eq_true_eq, not_or, ne_eq, not_not] at hquoted
    obtain ⟨⟨hwidth, hhead⟩, hlast⟩ := hquoted
    obtain ⟨tail, htail⟩ := head?_eq_some_iff.1 hhead
    rw [htail] at hlast h
    cases tail with
    | nil =>
      rw [width, htail] at hwidth
      exact absurd (by decide) hwidth
    | cons c cs =>
      obtain ⟨inner, hinner⟩ :=
        getLast?_eq_some_iff.1 (show (c :: cs).getLast? = some '"' by simpa using hlast)
      rw [hinner] at htail h
      refine ⟨inner, htail, fun hnot => ?_⟩
      have hdecode : decode inner = none := by
        cases hcodes : codes? inner with
        | none => rw [decode, hcodes]; rfl
        | some codes => exact absurd (isQuotable_of_codes? hcodes) hnot
      simp only [drop_succ_cons, drop_zero, dropLast_concat, hdecode, getD_none] at h
      exact (Except.ok.inj h).symm

end DefaultValue

/-- What a default of a primitive type is made of: one literal of the type, unless that is
    `string`.  A default of a string goes from one quoted text to another one or the same;
    if it is more than one token it stands for all that is written between the outer quotes. -/
structure Draft.Reader.FitsPrimitive (r : Draft.Reader) (e : Tree) (value : DefaultValue)
    (p : Primitive) : Prop where
  literal : p ≠ .string → IsLiteral p e.tokens
  string : p = .string → ∃ inner, (r.textOf e).toList = '"' :: (inner ++ ['"']) ∧
    (IsLiteral .string e.tokens ↔ IsQuotable inner) ∧
    (¬ IsQuotable inner → value = .text (String.ofList inner)) ∧
    (∃ t, e.tokens.head? = some t ∧ t.kind = .text) ∧ ∃ t, e.tokens.getLast? = some t ∧
    t.kind = .text

namespace Draft.Reader

variable {file text : String} {s : Source} (hs : Source.read file text = .ok s) {e : Tree}
  (he : e.tokens <:+: s.tokens) (hne : e.tokens ≠ [])
include hs he hne

theorem isLiteral_truth {word : String} (hword : word = "true" ∨ word = "false")
    (h : (ofSource s).textOf e = word) : IsLiteral .bool e.tokens := by
  obtain ⟨x, hx, hkind⟩ : ∃ x : Identifier, x.text = word ∧ wordKind word = .identifier := by
    rcases hword with rfl | rfl
    · exact ⟨⟨'t', ['r', 'u', 'e'], by decide, all_eq_true.1 (by decide)⟩, by decide, by decide⟩
    · exact ⟨⟨'f', ['a', 'l', 's', 'e'], by decide,
        all_eq_true.1 (by decide)⟩, by decide, by decide⟩
  obtain ⟨t, ht, htkind, himage⟩ := eq_name hs he hne (x := x) (by
    rw [h, ← hx, Identifier.text, String.toList_ofList])
  refine ⟨⟨t, ht, ?_⟩, fun _ => ?_⟩
  · rw [htkind, hx, hkind]
    rfl
  · rw [ht, map_singleton, himage, hx]
    rcases hword with rfl | rfl
    · exact .inl rfl
    · exact .inr rfl

/-- **What is read as a default of a primitive type** fits the type. -/
theorem fitsPrimitive {p : Primitive} {value : DefaultValue}
    (h : DefaultValue.readPrimitive ((ofSource s).textOf e) p = .ok value) :
    (ofSource s).FitsPrimitive e value p := by
  have hnumber : ∀ {n : Number}, ((ofSource s).textOf e).toList = n.chars →
      p.literalKind = .number → IsLiteral p e.tokens := by
    intro n hn hp
    obtain ⟨t, ht, hkind⟩ := eq_number hs he hne hn
    refine ⟨⟨t, ht, hkind.trans hp.symm⟩, ?_⟩
    rintro rfl
    cases hp
  cases p with
  | string =>
    obtain ⟨value, hvalue, h⟩ := bind_eq_ok h
    cases h
    obtain ⟨inner, htext, hverbatim⟩ := DefaultValue.exists_inner_of_unquote hvalue
    obtain ⟨hfirst, hlast, hsingle⟩ := eq_quoted hs he hne htext
    refine ⟨fun hp => absurd rfl hp, fun _ => ⟨inner, htext, ?_, fun hnot => ?_, hfirst, hlast⟩⟩
    · rw [← hsingle]
      refine ⟨fun hliteral => hliteral.single.imp fun t ht => ht.1, ?_⟩
      rintro ⟨t, ht⟩
      obtain ⟨t', ht', hkind⟩ := hfirst
      rw [ht] at ht'
      cases ht'
      exact ⟨⟨t, ht, hkind⟩, fun hp => by cases hp⟩
    · rw [hverbatim hnot]
  | int =>
    obtain ⟨d, hd, -⟩ := bind_eq_ok h
    obtain ⟨n, hn⟩ := DefaultValue.exists_number_of_readInteger hd
    exact ⟨fun _ => hnumber hn rfl, fun hp => by cases hp⟩
  | byte =>
    obtain ⟨d, hd, -⟩ := bind_eq_ok h
    obtain ⟨n, hn⟩ := DefaultValue.exists_number_of_readInteger hd
    exact ⟨fun _ => hnumber hn rfl, fun hp => by cases hp⟩
  | float =>
    rw [DefaultValue.readPrimitive] at h
    split at h
    · next hread =>
      obtain ⟨n, hn⟩ := Numeral.exists_number_of_read? hread
      exact ⟨fun _ => hnumber hn rfl, fun hp => by cases hp⟩
    · cases h
  | bool =>
    rw [DefaultValue.readPrimitive] at h
    split at h
    · next htrue => exact ⟨fun _ => isLiteral_truth hs he hne (.inl rfl) htrue,
        fun hp => by cases hp⟩
    · split at h
      · next hfalse => exact ⟨fun _ => isLiteral_truth hs he hne (.inr rfl) hfalse,
          fun hp => by cases hp⟩
      · cases h

end Draft.Reader

theorem Source.tokens_default {file text : String} {s : Source} (hs : Source.read file text = .ok s)
    {t e : Tree} (ht : t ∈ s.tree.parts .field) (he : t.find? .default = some e) :
    e.tokens <:+: s.tokens ∧ e.tokens ≠ [] := by
  obtain ⟨-, ⟨cs, htree, htokens, -⟩, hsource⟩ := Source.read_eq_ok_iff.1 hs
  obtain ⟨hmem, ds, rfl⟩ := Tree.mem_of_find? he
  have hpart : Tree.node .default ds ∈ t.parts .default :=
    Tree.mem_parts_of_mem_children hmem (Tree.mem_parts_self (by simp [Tree.isNode]))
  have hall : s.tree.tokens = s.tokens := by rw [hsource, htree, Tree.tokens, htokens]
  refine ⟨hall ▸ (Tree.tokens_infix_of_mem_parts hpart).trans (Tree.tokens_infix_of_mem_parts ht),
    fun hnil => ?_⟩
  have hvalid :=
    (((Source.read_valid hs).of_mem_parts ht).child hmem).mono (Q := fun _ => True) fun _ _ =>
    trivial
  obtain ⟨k, -, hk⟩ := hvalid.nextKind_mem rfl (by decide)
  rw [Tree.tokens] at hnil
  rw [hnil] at hk
  cases hk

/-- Every default of a primitive type in a text fits its type, and the field of the model that
    it is the default of has the value that it is read as. -/
def Source.PrimitivesFit (s : Source) (m : Model) : Prop :=
  ∀ t ∈ s.tree.parts .field, ∃ home f, (Draft.Reader.ofSource s).field home t = .ok f ∧
    ∀ p, f.type = .element (.scalar (.primitive p)) → ∀ e, t.find? .default = some e →
      ∃ ns ∈ m.namespaces, ∃ M ∈ ns.messages, ∃ F ∈ M.fields, ∃ value, F.name = f.name ∧
      F.type = .primitive p ∧
        F.default = some value ∧ (Draft.Reader.ofSource s).FitsPrimitive e value p

namespace Compilation

/-- **Defaults of primitive types are single literals, those of strings apart.**  In every
    text of a successful compilation, the default of a field of type `int`, `byte` or `float`
    is one number, that of a field of type `bool` is `true` or `false`.  The default of a
    string starts and ends with a quoted text, and is one quoted text just if no quote stands
    unescaped between its first and its last one; else it goes on from the first quoted text
    to the last one, whatever stands between them, and its value is the text as written. -/
theorem primitivesFit_of_compiles {fs : FileSystem} {ext path : String}
    {source : String → Option String} {lib : Library} (h : Compiles fs ext path source lib)
    {m : Model} (hm : m ∈ lib.reachable (Path.absolute path)) :
    ∃ text s, source m.file = some text ∧ Source.read m.file text = .ok s ∧ s.PrimitivesFit m := by
  obtain ⟨final, hsys, -⟩ := h.system
  obtain ⟨-, hfind⟩ := hsys.mem_reachable hm
  obtain ⟨text, s, htext, hs, hfields⟩ := hsys.exists_field_of_mem_parts hfind
  refine ⟨text, s, htext, hs, fun t ht => ?_⟩
  obtain ⟨home, f, hfield, hprimitive⟩ := hfields t ht
  refine ⟨home, f, hfield, fun p hp e he => ?_⟩
  have hdefault : f.default = some ((Draft.Reader.ofSource s).textOf e) := by
    obtain ⟨type, -, hf⟩ := bind_eq_ok hfield
    cases hf
    exact congrArg (Option.map _) he
  obtain ⟨ns, hns, M, hM, F, hF, hbecomes⟩ := hprimitive p hp
  obtain ⟨value, hvalue, hread⟩ := hbecomes.default _ hdefault
  obtain ⟨hwithin, hne⟩ := Source.tokens_default hs ht he
  exact ⟨ns, hns, M, hM, F, hF, value, hbecomes.name, hbecomes.type, hvalue,
    Draft.Reader.fitsPrimitive hs hwithin hne hread⟩

/-- The tokens of the defaults of a text. -/
def defaultWords (s : Source) : List (List (Kind × String)) :=
  (s.tree.parts .field).filterMap fun t => (t.find? .default).map fun e => e.tokens.map Lexeme.word

/-- A text with a default of several quoted texts, one of a single quoted text, and a number. -/
def quotes : String :=
  "message M \x7b s: string = \"a\" \"b\"; t: string = \"c\"; n: int = -1; \x7d"

theorem primitivesFit_quotes :
    ∃ lib m s, (alone quotes).result = .ok lib ∧ m ∈ lib.reachable "/a.def" ∧
    Source.read m.file quotes = .ok s ∧ s.PrimitivesFit m ∧ defaultWords s =
      [[(.text, "\"a\""), (.text, "\"b\"")], [(.text, "\"c\"")], [(.number, "-1")]] := by
  obtain ⟨lib, hlib, hfiles⟩ := exists_of_map_toOption (x := (alone quotes).result)
    (p := fun lib => (lib.reachable "/a.def").map (·.file)) (b := ["/a.def"]) (by decide +kernel)
  obtain ⟨m, hm, hfile⟩ : ∃ m ∈ lib.reachable "/a.def", m.file = "/a.def" :=
    mem_map.1 (hfiles ▸ mem_singleton_self "/a.def")
  have hpath : Path.absolute "/a.def" = "/a.def" := by decide +kernel
  obtain ⟨text, s, htext, hs, hfit⟩ :=
    primitivesFit_of_compiles (Compiles.ofText hlib) (by rw [hpath]; exact hm)
  rw [hpath, hfile, if_pos rfl] at htext
  obtain rfl := some.inj htext
  have hwords : (Source.read "/a.def" quotes).toOption.map defaultWords =
      some [[(.text, "\"a\""), (.text, "\"b\"")], [(.text, "\"c\"")], [(.number, "-1")]] := by
      decide +kernel
  refine ⟨lib, m, s, hlib, hm, hs, hfit, ?_⟩
  rw [← hfile, hs] at hwords
  exact some.inj hwords

/-- The types of the fields of a library, with their defaults as far as these are texts. -/
def textDefaults (lib : Library) : List (FieldType × Option String) :=
  (((lib.values.flatMap (·.namespaces)).flatMap (·.messages)).flatMap (·.fields)).map fun x =>
    (x.type, x.default.bind DefaultValue.text?)

theorem alone_twoQuoted :
    ∃ lib s, (alone "message M\x7bs:string=\"a\" \"b\"\x7d").result = .ok lib ∧
    textDefaults lib = [(.primitive .string, some "a\" \"b")] ∧
    Source.read "/a.def" "message M\x7bs:string=\"a\" \"b\"\x7d" = .ok s ∧
    ∃ t ∈ s.tree.parts .field, ∃ e, t.find? .default = some e ∧ ¬ IsLiteral .string e.tokens := by
  obtain ⟨lib, hlib, hdefaults⟩ := exists_of_map_toOption
    (x := (alone "message M\x7bs:string=\"a\" \"b\"\x7d").result) (p := textDefaults)
    (b := [(.primitive .string, some "a\" \"b")]) (by decide +kernel)
  have hwords : (Source.read "/a.def" "message M\x7bs:string=\"a\" \"b\"\x7d").toOption.map
    defaultWords = some [[(.text, "\"a\""), (.text, "\"b\"")]] := by decide +kernel
  cases hs : Source.read "/a.def" "message M\x7bs:string=\"a\" \"b\"\x7d" with
  | error fault =>
    rw [hs] at hwords
    cases hwords
  | ok s =>
    rw [hs] at hwords
    have hmem : [(.text, "\"a\""), (.text, "\"b\"")] ∈ defaultWords s := by
      rw [show defaultWords s = [[(.text, "\"a\""), (.text, "\"b\"")]] from some.inj hwords]
      exact mem_singleton_self _
    obtain ⟨t, ht, hmap⟩ := mem_filterMap.1 hmem
    obtain ⟨e, he, htokens⟩ := map_eq_some_iff.1 hmap
    refine ⟨lib, s, hlib, hdefaults, rfl, t, ht, e, he, fun hliteral => ?_⟩
    obtain ⟨u, hu, -⟩ := hliteral.single
    rw [hu] at htokens
    exact absurd (congrArg List.length htokens) (by simp)

end Compilation

end MessageSchema
