/-
  Words, and the names that are made of them.

  A word holds only characters of identifiers, so it holds no separator.
-/
import MessageSchema.QualifiedName
import MessageSchema.Token.Lexer
import Mathlib.Data.List.Basic

namespace MessageSchema

open List QualifiedName Lexer Text

/-- A text of characters that may stand in an identifier. -/
def IsWord (s : String) : Prop := ∀ c ∈ s.toList, isNameChar c = true

variable {c : Char}

theorem isWord_empty : IsWord "" := by simp [IsWord]

theorem IsWord.append {s t : String} (hs : IsWord s) (ht : IsWord t) : IsWord (s ++ t) := by
  intro c hc
  rw [String.toList_append, mem_append] at hc
  exact hc.elim (hs c) (ht c)

theorem IsWord.ofInline {m f : String} (hm : IsWord m) (hf : IsWord f) : IsWord (ofInline m f) := by
  have hbar : IsWord "_" := by intro c hc; simp at hc; subst hc; decide
  exact (hm.append hbar).append hf

theorem IsWord.not_mem {s : String} (hs : IsWord s) (hc : isNameChar c = false) : c ∉ s.toList := by
  intro h
  rw [hs c h] at hc
  cases hc

theorem isBlank_of_isNameChar (h : isNameChar c = true) : isBlank c = false := by
  have hc : c.toNat < 128 ∧ 33 ≤ c.toNat := by
    simp only [isNameChar, isNameStart, Numeral.isDigit, Bool.or_eq_true, Bool.and_eq_true,
      decide_eq_true_eq, beq_iff_eq, Char.le_def, UInt32.le_iff_toNat_le] at h
    rcases h with ((h | h) | h) | h
    · exact ⟨Nat.lt_of_le_of_lt h.2 (by decide), Nat.le_trans (by decide) h.1⟩
    · exact ⟨Nat.lt_of_le_of_lt h.2 (by decide), Nat.le_trans (by decide) h.1⟩
    · subst h; decide
    · exact ⟨Nat.lt_of_le_of_lt h.2 (by decide), Nat.le_trans (by decide) h.1⟩
  simp only [isBlank, blankRanges, any_cons, any_nil, Bool.or_eq_false_iff,
    Bool.and_eq_false_iff, decide_eq_false_iff_not, and_true]
  omega

namespace QualifiedName

/-! ## Names of members -/

variable {h a b : String}

theorem toList_join_some (hh : h ≠ "") (a : String) :
    (join (some h) a).toList = h.toList ++ ':' :: ':' :: a.toList := by
  simp [join, hh]

theorem join_some_injective (h : String) (e : join (some h) a = join (some h) b) : a = b := by
  by_cases hh : h = ""
  · simpa [join, hh] using e
  · have e := congrArg String.toList e
    rw [toList_join_some hh, toList_join_some hh] at e
    exact String.toList_inj.1 (by simpa using e)

/-- The last colon of a text is where its last word starts. -/
theorem append_colon_inj {x y a b : List Char} (ha : ':' ∉ a) (hb : ':' ∉ b)
    (e : x ++ ':' :: a = y ++ ':' :: b) : x = y ∧ a = b := by
  rcases append_eq_append_iff.1 e with ⟨z, hy, hz⟩ | ⟨z, hx, hz⟩
  · cases z with
    | nil => simp at hz; simp [hy, hz]
    | cons c z =>
      rw [cons_append, cons.injEq] at hz
      exact absurd (hz.2 ▸ mem_append_right z mem_cons_self) ha
  · cases z with
    | nil => simp at hz; simp [hx, hz]
    | cons c z =>
      rw [cons_append, cons.injEq] at hz
      exact absurd (hz.2 ▸ mem_append_right z mem_cons_self) hb

/-- **A qualified name tells its namespace**, if the name in it is a word. -/
theorem join_some_inj {k : String} (ha : IsWord a) (hb : IsWord b)
    (e : join (some h) a = join (some k) b) : h = k ∧ a = b := by
  have ca : ':' ∉ a.toList := ha.not_mem (by decide)
  have cb : ':' ∉ b.toList := hb.not_mem (by decide)
  have el := congrArg String.toList e
  by_cases hh : h = "" <;> by_cases hk : k = ""
  · subst hh hk
    exact ⟨rfl, join_some_injective _ e⟩
  · subst hh
    rw [toList_join_some hk] at el
    have : a.toList = k.toList ++ ':' :: ':' :: b.toList := by simpa [join] using el
    exact absurd (this ▸ by simp) ca
  · subst hk
    rw [toList_join_some hh] at el
    have : h.toList ++ ':' :: ':' :: a.toList = b.toList := by simpa [join] using el
    exact absurd (this ▸ by simp) cb
  · rw [toList_join_some hh, toList_join_some hk, append_cons, append_cons k.toList] at el
    obtain ⟨e1, e2⟩ := append_colon_inj ca cb el
    exact ⟨String.toList_inj.1 (append_cancel_right e1), String.toList_inj.1 e2⟩

theorem two_le_length_splitFrom (part before after : List Char) :
    2 ≤ (splitFrom atColons 0 part (before ++ ':' :: ':' :: after)).length := by
  have hcut : ∀ (p : List Char) n s, 2 ≤ (p :: splitFrom atColons n [] s).length := by
    intro p n s
    have := length_pos_of_ne_nil (splitFrom_ne_nil atColons n [] s)
    rw [length_cons]
    omega
  induction before generalizing part with
  | nil => exact hcut part.reverse 1 (':' :: after)
  | cons c before ih =>
    rw [cons_append, splitFrom]
    split
    · exact ih _
    · exact hcut _ _ _

/-- A member of something with a name has a qualified name. -/
theorem isQualified_join (hh : h ≠ "") (a : String) : isQualified (join (some h) a) = true := by
  have hlength := two_le_length_splitFrom [] h.toList a.toList
  rw [← toList_join_some hh] at hlength
  rw [isQualified, parts, split, length_map, bne_iff_ne]
  omega

end QualifiedName

/-! ## Names as they are written -/

/-- A name as a text spells it: words with double colons or dots between them. -/
inductive Spelled : List Char → Prop
  | word {w : List Char} : (∀ c ∈ w, isNameChar c = true) → Spelled w
  | colons {w s : List Char} : (∀ c ∈ w, isNameChar c = true) → Spelled s →
      Spelled (w ++ ':' :: ':' :: s)
  | dot {w s : List Char} : (∀ c ∈ w, isNameChar c = true) → Spelled s →
      Spelled (w ++ '.' :: s)

/-- The first word of a name as it is written. -/
def firstSegment (s : String) : String := (split atColonsOrDot s).headD ""

section
variable {w : List Char} (hw : ∀ c ∈ w, isNameChar c = true)
include hw

theorem splitFrom_word {cut : List Char → Nat}
    (hcut : ∀ c s, isNameChar c = true → cut (c :: s) = 0) (part s : List Char) :
    splitFrom cut 0 part (w ++ s) = splitFrom cut 0 (w.reverse ++ part) s := by
  induction w generalizing part with
  | nil => rfl
  | cons c w ih =>
    rw [cons_append, splitFrom, hcut c _ (hw c mem_cons_self)]
    simp only
    rw [ih fun c' hc' => hw c' (mem_cons_of_mem _ hc')]
    simp

theorem dotsToColons_word (s : List Char) :
    dotsToColons (w ++ s) = w ++ dotsToColons s := by
  induction w with
  | nil => rfl
  | cons c w ih =>
    have hc : c ≠ '.' := by
      rintro rfl
      exact absurd (hw '.' mem_cons_self) (by decide)
    rw [cons_append, dotsToColons, if_neg hc,
      ih fun c' hc' => hw c' (mem_cons_of_mem _ hc'), cons_append]

end

theorem atColons_nameChar (c : Char) (s : List Char) (h : isNameChar c = true) :
    atColons (c :: s) = 0 := by
  have hc : c ≠ ':' := by rintro rfl; exact absurd h (by decide)
  rw [atColons]
  rintro s' e
  exact hc (cons.inj e).1

theorem atColonsOrDot_nameChar (c : Char) (s : List Char) (h : isNameChar c = true) :
    atColonsOrDot (c :: s) = 0 := by
  have hc : c ≠ '.' := by rintro rfl; exact absurd h (by decide)
  rw [atColonsOrDot]
  · exact atColons_nameChar c s h
  · rintro s' e
    exact hc (cons.inj e).1

theorem Spelled.not_blank {s : List Char} (h : Spelled s) : ∀ c ∈ s, isBlank c = false := by
  induction h with
  | word hw => exact fun c hc => isBlank_of_isNameChar (hw c hc)
  | colons hw _ ih =>
    intro c hc
    simp only [mem_append, mem_cons] at hc
    rcases hc with hc | rfl | rfl | hc
    · exact isBlank_of_isNameChar (hw c hc)
    · decide
    · decide
    · exact ih c hc
  | dot hw _ ih =>
    intro c hc
    simp only [mem_append, mem_cons] at hc
    rcases hc with hc | rfl | hc
    · exact isBlank_of_isNameChar (hw c hc)
    · decide
    · exact ih c hc

theorem headD_map_ofList (l : List (List Char)) :
    (l.map String.ofList).headD "" = String.ofList (l.headD []) := by cases l <;> rfl

/-- **Writing a name with double colons keeps its first word.** -/
theorem head_withColons {s : String} (h : Spelled s.toList) :
    head (withColons s) = firstSegment s := by
  have hsq : (squeeze s).toList = s.toList := by
    rw [squeeze, String.toList_ofList, filter_eq_self]
    intro c hc
    rw [h.not_blank c hc]; rfl
  have hhead : head (withColons s) =
      String.ofList ((splitFrom atColons 0 [] (dotsToColons s.toList)).headD []) := by
    rw [QualifiedName.head, QualifiedName.parts, split, headD_map_ofList, QualifiedName.withColons,
      String.toList_ofList, hsq]
  rw [hhead, firstSegment, split, headD_map_ofList]
  generalize s.toList = l at h
  refine congrArg String.ofList ?_
  cases h with
  | word hw =>
    have e := dotsToColons_word hw []
    have e1 := splitFrom_word hw atColons_nameChar [] []
    have e2 := splitFrom_word hw atColonsOrDot_nameChar [] []
    simp only [append_nil] at e e1 e2
    rw [e, dotsToColons, append_nil, e1, e2]
    simp [splitFrom]
  | colons hw _ =>
    rw [dotsToColons_word hw, splitFrom_word hw atColons_nameChar,
      splitFrom_word hw atColonsOrDot_nameChar]
    simp [splitFrom, dotsToColons, atColons, atColonsOrDot]
  | dot hw _ =>
    rw [dotsToColons_word hw, splitFrom_word hw atColons_nameChar,
      splitFrom_word hw atColonsOrDot_nameChar]
    simp [splitFrom, dotsToColons, atColons, atColonsOrDot]

end MessageSchema
