/-
  Words: tokens as they are written.

  A word carries the proof that the lexer finds just this token where the word is
  written, if a blank, a line end or nothing follows.  So words with blanks or line
  ends between them are found again as they are.

  * `scan_layout`: the tokens of words that are laid out in a text.
-/
import MessageSchema.Parser.Source
import MessageSchema.Proofs.Pieces
import Mathlib.Data.List.Chain
import Mathlib.Data.List.TakeWhile

namespace MessageSchema

open List Option Lexer Piece Numeral

/-! ## What words are made of -/

/-- A text of a letter or an underscore, and letters, underscores and digits. -/
structure Identifier where
  first : Char
  rest : List Char
  isNameStart_first : isNameStart first = true
  isNameChar_rest : ∀ c ∈ rest, isNameChar c = true

def Identifier.chars (x : Identifier) : List Char := x.first :: x.rest

def Identifier.text (x : Identifier) : String := String.ofList x.chars

/-- An identifier that is no keyword. -/
structure PlainIdentifier extends Identifier where
  notKeyword : Keyword.ofWord? toIdentifier.text = none

/-- What may stand between quotes: no quote and no line end, and no backslash but in
    front of a character that it takes with it. -/
inductive IsQuotable : List Char → Prop
  | nil : IsQuotable []
  | char {c : Char} {s : List Char} : c ≠ '"' → c ≠ '\\' → isLineChar c = true → IsQuotable s →
      IsQuotable (c :: s)
  | escape {c : Char} {s : List Char} : Text.isLineEnd c = false → IsQuotable s →
      IsQuotable ('\\' :: c :: s)

/-- The content of a quoted text. -/
structure Quotable where
  chars : List Char
  isQuotable : IsQuotable chars

/-- Digits, at least one. -/
structure Digits where
  chars : List Char
  ne_nil : chars ≠ []
  isDigit : ∀ c ∈ chars, isDigit c = true

/-- The exponent of a number: its letter, its sign and its digits. -/
structure Exponent where
  isUpper : Bool
  /-- whether a sign is written, and whether it is a minus -/
  sign : Option Bool
  digits : Digits

namespace Exponent

def signChars : Option Bool → List Char
  | none => []
  | some true => ['-']
  | some false => ['+']

def chars (e : Exponent) : List Char :=
  (if e.isUpper then 'E' else 'e') :: (signChars e.sign ++ e.digits.chars)

end Exponent

/-- A number as it is written. -/
structure Number where
  negative : Bool
  whole : Digits
  fraction : Option Digits := none
  exponent : Option Exponent := none

namespace Number

def fractionChars : Option Digits → List Char
  | none => []
  | some ds => '.' :: ds.chars

def exponentChars : Option Exponent → List Char
  | none => []
  | some e => e.chars

def chars (n : Number) : List Char :=
  (if n.negative then ['-'] else []) ++
    (n.whole.chars ++ (fractionChars n.fraction ++ exponentChars n.exponent))

end Number

/-- The decimal digits of a number. -/
def Digits.ofNat (n : Nat) : Digits where
  chars := Nat.toDigits 10 n
  ne_nil := Nat.toDigits_ne_nil
  isDigit c hc := by
    have h := Nat.isDigit_of_mem_toDigits (by decide) (by decide) hc
    simpa [Char.isDigit, Numeral.isDigit, Char.le_def] using h

def Number.ofInt (n : Int) : Number := { negative := n < 0, whole := .ofNat n.natAbs }

/-! ## Reading them -/

/-- Nothing, or a text that starts with a blank or a line end. -/
def Separated (s : List Char) : Prop := ∀ c ∈ s.head?, c = ' ' ∨ c = '\n'

variable {s t : List Char} {p : Char → Bool}

theorem Separated.eq_false (h : Separated s) (hblank : p ' ' = false)
    (hend : p '\n' = false) : ∀ c ∈ s.head?, p c = false := by
  intro c hc
  rcases h c hc with rfl | rfl
  · exact hblank
  · exact hend

theorem takeWhile_append_of_head {y rest : List Char} (hy : ∀ c ∈ y, p c = true)
    (hrest : ∀ c ∈ rest.head?, p c = false) : (y ++ rest).takeWhile p = y := by
  rw [takeWhile_append_of_pos hy]
  cases rest with
  | nil => simp
  | cons c rest => simp [hrest c rfl]

theorem quotedLength_append (h : IsQuotable s) (rest : List Char) :
    quotedLength (s ++ '"' :: rest) = some (s.length + 1) := by
  induction h with
  | nil => simp [quotedLength]
  | @char c s hquote hslash hline _ ih =>
    rw [cons_append, quotedLength.eq_def]
    split
    · next heq => cases heq
    · next heq => exact absurd (cons.inj heq).1 hslash
    · next heq =>
      obtain ⟨rfl, rfl⟩ := cons.inj heq
      simp [hquote, hslash, hline, ih]
  | @escape c s hend _ ih =>
    rw [cons_append, cons_append, quotedLength, if_neg (by simp [hend]), ih]
    simp

theorem exists_quotable {n : Nat} (h : quotedLength s = some n) :
    ∃ q rest, IsQuotable q ∧ s = q ++ '"' :: rest ∧ n = q.length + 1 := by
  fun_induction quotedLength s generalizing n with
  | case1 => cases h
  | case2 => cases h
  | case3 c s hc ih =>
    obtain ⟨m, hm, rfl⟩ := Option.map_eq_some_iff.1 h
    obtain ⟨q, rest, hq, rfl, rfl⟩ := ih hm
    exact ⟨'\\' :: c :: q, rest, .escape (Bool.eq_false_iff.2 hc) hq, rfl, rfl⟩
  | case4 s =>
    cases h
    exact ⟨[], s, .nil, rfl, rfl⟩
  | case5 => cases h
  | case6 c s hne hquote hline ih =>
    obtain ⟨m, hm, rfl⟩ := Option.map_eq_some_iff.1 h
    obtain ⟨q, rest, hq, rfl, rfl⟩ := ih hm
    rw [not_or, Bool.not_eq_true, Bool.not_eq_false'] at hline
    exact ⟨c :: q, rest, .char hquote hline.1 hline.2 hq, rfl, rfl⟩

/-! ### Numbers -/

theorem Digits.isEmpty_chars (ds : Digits) : ds.chars.isEmpty = false := by
  simpa using ds.ne_nil

theorem Digits.splitDigits_append (ds : Digits) (ht : ∀ c ∈ t.head?, Numeral.isDigit c = false) :
    Numeral.splitDigits (ds.chars ++ t) = (ds.chars, t) := by
  have hnone : t.takeWhile Numeral.isDigit = [] ∧ t.dropWhile Numeral.isDigit = t := by
    cases t with
    | nil => exact ⟨rfl, rfl⟩
    | cons c t => simp [ht c rfl]
  rw [splitDigits, takeWhile_append_of_pos ds.isDigit, dropWhile_append_of_pos ds.isDigit,
    hnone.1, hnone.2, append_nil]

theorem Digits.splitSign_append (ds : Digits) (t : List Char) :
    splitSign (ds.chars ++ t) = (false, ds.chars ++ t) := by
  cases hds : ds.chars with
  | nil => exact absurd hds ds.ne_nil
  | cons c cs =>
    have hc : c ≠ '-' := by
      rintro rfl
      have h := ds.isDigit '-' (by simp [hds])
      exact absurd h (by decide)
    rw [cons_append, splitSign]
    rintro s heq
    exact hc (cons.inj heq).1

theorem splitExponentSign_append (sign : Option Bool) (ds : Digits) (t : List Char) :
    splitExponentSign (Exponent.signChars sign ++ (ds.chars ++ t)) =
      (sign.getD false, (Exponent.signChars sign).length, ds.chars ++ t) := by
  rcases sign with _ | _ | _
  · cases hds : ds.chars with
    | nil => exact absurd hds ds.ne_nil
    | cons c cs =>
      have hc := ds.isDigit c (by simp [hds])
      have hminus : c ≠ '-' := by rintro rfl; exact absurd hc (by decide)
      have hplus : c ≠ '+' := by rintro rfl; exact absurd hc (by decide)
      rw [Exponent.signChars, nil_append, cons_append, splitExponentSign]
      · rfl
      · rintro s heq; exact hminus (cons.inj heq).1
      · rintro s heq; exact hplus (cons.inj heq).1
  · rfl
  · rfl

theorem Number.splitFraction_of_head (fraction : Option Digits)
    (ht : ∀ c ∈ t.head?, Numeral.isDigit c = false ∧ c ≠ '.') :
    Numeral.splitFraction (fractionChars fraction ++ t) = (fraction.elim [] Digits.chars, t) := by
  cases fraction with
  | none =>
    cases t with
    | nil => rfl
    | cons c t =>
      rw [fractionChars, nil_append, splitFraction]
      · rfl
      · rintro s heq
        exact (ht c rfl).2 (cons.inj heq).1
  | some ds =>
    simp only [fractionChars, cons_append, Numeral.splitFraction]
    rw [ds.splitDigits_append fun c hc => (ht c hc).1]
    simp [ds.isEmpty_chars]

theorem Number.splitSign_append (n : Number) (rest : List Char) : splitSign (n.chars ++ rest) =
    (n.negative,
      n.whole.chars ++ (fractionChars n.fraction ++ (exponentChars n.exponent ++ rest))) := by
  rw [Number.chars]
  cases n.negative with
  | true => simp [splitSign]
  | false => simpa using n.whole.splitSign_append _

theorem Number.exists_head (n : Number) :
    ∃ c s, n.chars = c :: s ∧ (c == '-' || isDigit c) = true := by
  rw [Number.chars]
  cases n.negative with
  | true => exact ⟨_, _, rfl, rfl⟩
  | false =>
    cases hds : n.whole.chars with
    | nil => exact absurd hds n.whole.ne_nil
    | cons c ds =>
      refine ⟨c, _, rfl, ?_⟩
      rw [n.whole.isDigit c (by simp [hds]), Bool.or_true]

theorem Number.length_pos (n : Number) : 0 < n.chars.length := by
  obtain ⟨c, s, hchars, -⟩ := n.exists_head
  rw [hchars]
  exact Nat.succ_pos _

namespace Numeral

variable {c : Char} {s : List Char}

theorem splitExponent_of_isEmpty (h : (splitDigits (splitExponentSign s).2.2).1 = []) :
    splitExponent (c :: s) = (false, 0, [], c :: s) := by
  simp [splitExponent, h]

theorem splitExponent_of_not_isEmpty (hc : c = 'e' ∨ c = 'E')
    (h : (splitDigits (splitExponentSign s).2.2).1 ≠ []) :
    splitExponent (c :: s) = ((splitExponentSign s).1, (splitExponentSign s).2.1,
      splitDigits (splitExponentSign s).2.2) := by
  simp [splitExponent, hc, h]

theorem splitExponent_of_not_mark (hc : ¬(c = 'e' ∨ c = 'E')) (s : List Char) :
    splitExponent (c :: s) = (false, 0, [], c :: s) := by
  simp [splitExponent, hc]

theorem length_eq (s : List Char) : length s =
    if (splitDigits (splitSign s).2).1.isEmpty then 0
    else
      let fraction := splitFraction (splitDigits (splitSign s).2).2
      (if (splitSign s).1 then 1 else 0) + (splitDigits (splitSign s).2).1.length
        + (if fraction.1.isEmpty then 0 else 1 + fraction.1.length)
        + (if (splitExponent fraction.2).2.2.1.isEmpty then 0
          else 1 + (splitExponent fraction.2).2.1 + (splitExponent fraction.2).2.2.1.length) :=
  rfl

theorem splitSign_eq (s : List Char) :
    s = (if (splitSign s).1 then ['-'] else []) ++ (splitSign s).2 := by
  unfold splitSign
  split <;> rfl

theorem exists_digits (h : (splitDigits s).1.isEmpty = false) :
    ∃ ds : Digits, ds.chars = (splitDigits s).1 ∧ s = ds.chars ++ (splitDigits s).2 :=
  ⟨⟨(splitDigits s).1, by simpa using h, fun _ hc => mem_takeWhile_imp hc⟩, rfl,
    takeWhile_append_dropWhile.symm⟩

theorem exists_fraction (s : List Char) :
    ∃ f : Option Digits, s = Number.fractionChars f ++ (splitFraction s).2 ∧
    (Number.fractionChars f).length =
      if (splitFraction s).1.isEmpty then 0 else 1 + (splitFraction s).1.length := by
  unfold splitFraction
  split
  · next t =>
    cases hempty : (splitDigits t).1.isEmpty with
    | true =>
      exact ⟨none, by simp [hempty, Number.fractionChars], by simp [hempty, Number.fractionChars]⟩
    | false =>
      obtain ⟨ds, hds, ht⟩ := exists_digits hempty
      refine ⟨some ds, ?_, ?_⟩
      · simp only [hempty, Bool.false_eq_true, if_false, Number.fractionChars, cons_append]
        rw [← ht]
      · simp only [hempty, Bool.false_eq_true, if_false, Number.fractionChars, length_cons, hds]
        omega
  · exact ⟨none, rfl, rfl⟩

theorem exists_exponentSign (s : List Char) :
    ∃ sign, s = Exponent.signChars sign ++ (splitExponentSign s).2.2 ∧
    (Exponent.signChars sign).length = (splitExponentSign s).2.1 := by
  unfold splitExponentSign
  split
  · exact ⟨some true, rfl, rfl⟩
  · exact ⟨some false, rfl, rfl⟩
  · exact ⟨none, rfl, rfl⟩

theorem exists_exponent (s : List Char) :
    ∃ e : Option Exponent, s = Number.exponentChars e ++ (splitExponent s).2.2.2 ∧
      (Number.exponentChars e).length =
        if (splitExponent s).2.2.1.isEmpty then 0
          else 1 + (splitExponent s).2.1 + (splitExponent s).2.2.1.length := by
  cases s with
  | nil => exact ⟨none, rfl, rfl⟩
  | cons c t =>
    by_cases hc : c = 'e' ∨ c = 'E'
    · cases hempty : (splitDigits (splitExponentSign t).2.2).1.isEmpty with
      | true =>
        rw [splitExponent_of_isEmpty (List.isEmpty_iff.1 hempty)]
        exact ⟨none, rfl, rfl⟩
      | false =>
        obtain ⟨ds, hds, hdigits⟩ := exists_digits hempty
        obtain ⟨sign, hsign, hlength⟩ := exists_exponentSign t
        rw [splitExponent_of_not_isEmpty hc (by simpa using hempty)]
        refine ⟨some ⟨c = 'E', sign, ds⟩, ?_, ?_⟩
        · have hletter : (if c = 'E' then 'E' else 'e') = c := by
            rcases hc with rfl | rfl <;> rfl
          simp [Number.exponentChars, Exponent.chars, hletter, ← hdigits, ← hsign]
        · simp only [Number.exponentChars, Exponent.chars, length_cons, length_append, hlength, hds,
            hempty, Bool.false_eq_true, if_false]
          omega
    · rw [splitExponent_of_not_mark hc]
      exact ⟨none, rfl, rfl⟩

/-- What follows the number that a text starts with. -/
def afterNumber (s : List Char) : List Char :=
  (splitExponent (splitFraction (splitDigits (splitSign s).2).2).2).2.2.2

theorem exists_number_of_digits (h : (splitDigits (splitSign s).2).1.isEmpty = false) :
    ∃ n : Number, s = n.chars ++ afterNumber s ∧ n.chars.length = length s := by
  obtain ⟨whole, hwhole, hdigits⟩ := exists_digits h
  obtain ⟨fraction, hfraction, hflength⟩ := exists_fraction (splitDigits (splitSign s).2).2
  obtain ⟨e, he, helength⟩ := exists_exponent (splitFraction (splitDigits (splitSign s).2).2).2
  refine ⟨⟨(splitSign s).1, whole, fraction, e⟩, ?_, ?_⟩
  · rw [Number.chars, append_assoc, append_assoc, append_assoc, afterNumber, ← he, ← hfraction,
      ← hdigits, ← splitSign_eq]
  · rw [length_eq, h]
    simp only [Number.chars, length_append, hwhole, hflength, helength,
      Bool.false_eq_true, if_false]
    cases (splitSign s).1 <;> simp <;> omega

/-- **What counts as a number** at the front of a text is a number as it is written. -/
theorem exists_number (h : 0 < length s) :
    ∃ (n : Number) (rest : List Char), s = n.chars ++ rest ∧ n.chars.length = length s := by
  cases hempty : (splitDigits (splitSign s).2).1.isEmpty with
  | true =>
    rw [length_eq, if_pos hempty] at h
    exact absurd h (Nat.lt_irrefl 0)
  | false => exact (exists_number_of_digits hempty).imp fun n hn => ⟨_, hn⟩

end Numeral

namespace Number

/-- The characters that numbers are written with. -/
def isChar (c : Char) : Bool := isDigit c || ['-', '.', 'e', 'E', '+'].contains c

theorem isChar_of_mem {n : Number} {c : Char} (h : c ∈ n.chars) : isChar c = true := by
  have hdigits : ∀ ds : Digits, c ∈ ds.chars → isChar c = true :=
    fun ds hc => by simp [isChar, ds.isDigit c hc]
  rw [chars, mem_append, mem_append, mem_append] at h
  rcases h with h | h | h | h
  · cases hn : n.negative <;> simp_all [isChar]
  · exact hdigits n.whole h
  · cases hf : n.fraction with
    | none => simp [hf, fractionChars] at h
    | some ds =>
      rw [hf, fractionChars, mem_cons] at h
      rcases h with rfl | h
      · rfl
      · exact hdigits ds h
  · cases he : n.exponent with
    | none => simp [he, exponentChars] at h
    | some e =>
      rw [he, exponentChars, Exponent.chars, mem_cons, mem_append] at h
      rcases h with h | h | h
      · cases hu : e.isUpper <;> simp_all [isChar]
      · rcases hsign : e.sign with _ | _ | _ <;> simp_all [isChar, Exponent.signChars]
      · exact hdigits e.digits h

theorem length_splitDigits_append (ds : Digits) (t : List Char) :
    (splitDigits (ds.chars ++ t)).1.isEmpty = false ∧
      ds.chars.length ≤ (splitDigits (ds.chars ++ t)).1.length := by
  have hsplit : (splitDigits (ds.chars ++ t)).1 = ds.chars ++ t.takeWhile isDigit :=
    takeWhile_append_of_pos ds.isDigit
  rw [hsplit, length_append]
  exact ⟨by simp [ds.ne_nil], Nat.le_add_right _ _⟩

theorem length_splitExponent_append (e : Exponent) (t : List Char) :
    e.chars.length ≤ if (splitExponent (e.chars ++ t)).2.2.1.isEmpty then 0
      else 1 + (splitExponent (e.chars ++ t)).2.1 +
        (splitExponent (e.chars ++ t)).2.2.1.length := by
  obtain ⟨hne, hle⟩ := length_splitDigits_append e.digits t
  have hletter : (if e.isUpper then 'E' else 'e') = 'e' ∨
      (if e.isUpper then 'E' else 'e') = 'E' := by
    cases e.isUpper <;> decide
  have hsign := splitExponentSign_append e.sign e.digits t
  have hsplit :=
    splitExponent_of_not_isEmpty (s := Exponent.signChars e.sign ++ (e.digits.chars ++ t)) hletter
    (by rw [hsign]; simpa using hne)
  rw [Exponent.chars, cons_append, append_assoc, hsplit, hsign]
  simp only [hne, Bool.false_eq_true, if_false, length_cons, length_append]
  omega

/-- **A number is recognized to its end at least**, whatever follows it. -/
theorem length_le (n : Number) (rest : List Char) :
    n.chars.length ≤ Numeral.length (n.chars ++ rest) := by
  have hsign := n.splitSign_append rest
  obtain ⟨hne, hle⟩ := length_splitDigits_append n.whole
    (fractionChars n.fraction ++ (exponentChars n.exponent ++ rest))
  have hlength : n.chars.length = (if n.negative then 1 else 0) + n.whole.chars.length +
      (fractionChars n.fraction).length + (exponentChars n.exponent).length := by
    rw [chars]
    cases n.negative <;> simp <;> omega
  rw [length_eq, hsign, hne, hlength]
  simp only [Bool.false_eq_true, if_false]
  cases he : n.exponent with
  | some e =>
    -- the exponent ends the number, all before it is taken in exactly
    have hhead : ∀ c ∈ (exponentChars (some e) ++ rest).head?, isDigit c = false ∧ c ≠ '.' := by
      intro c hc
      simp only [exponentChars, Exponent.chars, cons_append, head?_cons, mem_some_iff] at hc
      subst hc
      cases e.isUpper <;> decide
    have hwhole : ∀ c ∈ (fractionChars n.fraction ++ (exponentChars (some e) ++ rest)).head?,
        isDigit c = false := by
      cases n.fraction with
      | none => exact fun c hc => (hhead c hc).1
      | some ds =>
        intro c hc
        simp only [fractionChars, cons_append, head?_cons, mem_some_iff] at hc
        subst hc
        decide
    have hexponent := length_splitExponent_append e rest
    rw [n.whole.splitDigits_append hwhole, splitFraction_of_head n.fraction hhead]
    cases n.fraction with
    | none =>
      simp only [elim_none, isEmpty_nil, if_true, fractionChars, exponentChars, length_nil]
      exact Nat.add_le_add_left hexponent _
    | some ds =>
      simp only [elim_some, ds.isEmpty_chars, Bool.false_eq_true, if_false, fractionChars,
        exponentChars, length_cons]
      exact Nat.add_le_add (by omega) hexponent
  | none =>
    cases hf : n.fraction with
    | none =>
      rw [he, hf] at hle
      simp only [fractionChars, exponentChars, length_nil] at hle ⊢
      omega
    | some ds =>
      obtain ⟨hne', hle'⟩ := length_splitDigits_append ds rest
      have hfraction : (splitFraction ('.' :: (ds.chars ++ rest))).1 =
          (splitDigits (ds.chars ++ rest)).1 := by
        simp [splitFraction, hne']
      rw [n.whole.splitDigits_append (by simp [fractionChars]; decide)]
      simp only [fractionChars, exponentChars, nil_append, cons_append, length_cons, length_nil,
        hfraction, hne', Bool.false_eq_true, if_false]
      omega

end Number

namespace Numeral

theorem length_mono {s t : List Char} (h : ∀ n : Number, n.chars <+: s → n.chars <+: t) :
    length s ≤ length t := by
  rcases Nat.eq_zero_or_pos (length s) with hzero | hpos
  · rw [hzero]
    exact Nat.zero_le _
  · obtain ⟨n, rest, hs, hlength⟩ := exists_number hpos
    obtain ⟨rest', rfl⟩ := h n ⟨rest, hs.symm⟩
    rw [← hlength]
    exact n.length_le rest'

theorem length_le_length (s : List Char) : length s ≤ s.length := by
  rcases Nat.eq_zero_or_pos (length s) with hzero | hpos
  · rw [hzero]
    exact Nat.zero_le _
  · obtain ⟨n, rest, hs, hlength⟩ := exists_number hpos
    rw [← hlength, hs, length_append]
    exact Nat.le_add_right _ _

end Numeral

variable {rest : List Char} {c : Char}

theorem prefix_of_head {m x z : List Char} (h : m <+: x ++ z) (hz : ∀ c ∈ z.head?, c ∉ m) :
    m <+: x := by
  rcases prefix_or_prefix_of_prefix h (prefix_append x z) with hx | ⟨t, rfl⟩
  · exact hx
  · rw [prefix_append_right_inj] at h
    cases t with
    | nil => simp
    | cons c t =>
      obtain ⟨z, rfl⟩ := h
      exact absurd (mem_append_right x mem_cons_self) (hz c rfl)

/-- **A number is read to its end**, if no number goes on with what follows. -/
theorem Number.length_append (n : Number) (hrest : ∀ c ∈ rest.head?, isChar c = false) :
    Numeral.length (n.chars ++ rest) = n.chars.length := by
  refine Nat.le_antisymm ?_ (n.length_le rest)
  obtain ⟨m, tail, hm, hlength⟩ :=
    exists_number (Nat.lt_of_lt_of_le n.length_pos (n.length_le rest))
  rw [← hlength]
  refine (prefix_of_head ⟨tail, hm.symm⟩ fun c hc hmem => ?_).length_le
  exact absurd (hrest c hc) (by simp [isChar_of_mem hmem])

theorem Number.recognize_append (n : Number) (h : 0 < Numeral.length (n.chars ++ rest)) :
    recognize (n.chars ++ rest) = some (.token .number, Numeral.length (n.chars ++ rest)) := by
  obtain ⟨c, s, hchars, hc⟩ := n.exists_head
  have hmark : c ∉ markers := not_mem_of_any (p := fun c => c == '-' || isDigit c) (by decide) hc
  have hquote : c ∉ ['"'] := not_mem_of_any (p := fun c => c == '-' || isDigit c) (by decide) hc
  rw [hchars, cons_append] at h ⊢
  rw [recognize_of_not_mem_markers hmark, recognizeWord, if_neg fun h => hquote (mem_singleton.2 h),
    if_pos h]

/-! ## Words -/

/-- A text that is one token wherever a blank or a line end follows. -/
structure Word where
  kind : Kind
  image : List Char
  /-- whether a line ends after it, rather than a blank following -/
  endsLine : Bool := false
  sound : ∀ rest, Separated rest → recognize (image ++ rest) = some (.token kind, image.length)
  /-- no line ends after an equals sign -/
  joins : kind = .equals → endsLine = false := by simp

def Word.text (w : Word) : String := String.ofList w.image

/-- A word at the end of a line. -/
def Word.last (w : Word) (h : w.kind ≠ .equals) : Word :=
  { w with endsLine := true, joins := fun hkind => absurd hkind h }

theorem isDigit_of_isNameStart (h : isNameStart c = true) : isDigit c = false := by
  simp only [isNameStart, Bool.or_eq_true, Bool.and_eq_true, decide_eq_true_eq, beq_iff_eq,
    Char.le_def, UInt32.le_iff_toNat_le] at h
  simp only [isDigit, Bool.and_eq_false_iff, decide_eq_false_iff_not, Char.le_def,
    UInt32.le_iff_toNat_le]
  rcases h with (h | h) | rfl
  · exact .inr (Nat.not_le.2 (Nat.lt_of_lt_of_le (by decide) h.1))
  · exact .inr (Nat.not_le.2 (Nat.lt_of_lt_of_le (by decide) h.1))
  · exact .inr (by decide)

theorem recognize_name (hc : isNameStart c = true) (s : List Char) : recognize (c :: s) =
    some (.token (wordKind (String.ofList (c :: s.takeWhile isNameChar))),
      (s.takeWhile isNameChar).length + 1) := by
  have hmark : c ∉ markers := not_mem_of_any (by decide) hc
  have hother : c ∉ ['"', '-'] := not_mem_of_any (by decide) hc
  simp only [mem_cons, not_mem_nil, or_false, not_or] at hother
  rw [recognize_of_not_mem_markers hmark, recognizeWord, if_neg hother.1,
    numeralLength_eq_zero hother.2 (isDigit_of_isNameStart hc), if_neg (Nat.lt_irrefl 0), if_pos hc]

/-- The word for a name, a keyword if it is one. -/
def Word.name (x : Identifier) : Word where
  kind := wordKind x.text
  image := x.chars
  sound rest hrest := by
    have htake :=
      takeWhile_append_of_head x.isNameChar_rest (hrest.eq_false (by decide) (by decide))
    rw [Identifier.chars, cons_append, recognize_name x.isNameStart_first, htake]
    rfl

/-- The word for a punctuation mark. -/
def Word.mark (c : Char) (k : Kind) (h : punctuation? c = some k) : Word where
  kind := k
  image := [c]
  sound rest hrest := by
    rw [singleton_append]
    by_cases hcolon : c = ':'
    · subst hcolon
      obtain rfl : Kind.colon = k := some.inj h
      rw [recognize_colon, if_neg]
      · rfl
      · intro hhead
        rcases hrest ':' hhead with hcolon | hcolon <;> exact absurd hcolon (by decide)
    · exact recognize_punctuation hcolon h rest

def Word.colons : Word where
  kind := .colons
  image := [':', ':']
  sound rest _ := by simp [recognize]

def Word.quoted (q : Quotable) : Word where
  kind := .text
  image := '"' :: (q.chars ++ ['"'])
  sound rest _ := by
    rw [cons_append, append_assoc, singleton_append,
      recognize_of_not_mem_markers (by decide), recognizeWord, if_pos rfl,
      quotedLength_append q.isQuotable]
    simp

def Word.number (n : Number) : Word where
  kind := .number
  image := n.chars
  sound rest hrest := by
    have hlength := n.length_append (hrest.eq_false (by decide) (by decide))
    rw [n.recognize_append (by rw [hlength]; exact n.length_pos), hlength]

theorem Word.exists_head (w : Word) : ∃ c s, w.image = c :: s ∧ isGap c = false := by
  have hsound := w.sound [] (by simp [Separated])
  rw [append_nil] at hsound
  cases himage : w.image with
  | nil =>
    rw [himage] at hsound
    cases hsound
  | cons c s =>
    refine ⟨c, s, rfl, Bool.eq_false_iff.2 fun hgap => ?_⟩
    simp only [isGap, Bool.or_eq_true, beq_iff_eq] at hgap
    rw [himage] at hsound
    rcases hgap with (rfl | rfl) | rfl <;> simp [recognize, isGap] at hsound

theorem Word.image_ne_nil (w : Word) : w.image ≠ [] := by
  obtain ⟨c, s, himage, -⟩ := w.exists_head
  rw [himage]
  exact cons_ne_nil c s

/-! ## Words in a text -/

def Word.separator (w : Word) : Char := if w.endsLine then '\n' else ' '

/-- The text that words are written in, one blank or one line end between them. -/
def layout : List Word → List Char
  | [] => []
  | [w] => w.image
  | w :: v :: ws => w.image ++ w.separator :: layout (v :: ws)

/-- The piece that stands between two words. -/
def Word.gap (w : Word) (p : Position) : Piece :=
  ⟨if w.endsLine then .lineEnd else .blank, [w.separator], p⟩

def Word.piece (w : Word) (p : Position) : Piece := ⟨.token w.kind, w.image, p⟩

theorem Word.separated (w : Word) (s : List Char) : Separated (w.separator :: s) := by
  intro c hc
  simp only [head?_cons, mem_some_iff] at hc
  subst hc
  rw [separator]
  cases w.endsLine <;> simp

theorem exists_head_layout (w : Word) (ws : List Word) :
    ∃ c s, layout (w :: ws) = c :: s ∧ isGap c = false := by
  obtain ⟨c, s, himage, hc⟩ := w.exists_head
  cases ws with
  | nil => exact ⟨c, s, himage, hc⟩
  | cons v ws => exact ⟨c, _, by rw [layout, himage, cons_append], hc⟩

/-- **Words are found where they are written.** -/
theorem piecesFrom_layout (w v : Word) (ws : List Word) (p : Position) :
    piecesFrom p 0 (layout (w :: v :: ws)) = w.piece p :: w.gap (w.piece p).next ::
      piecesFrom (w.gap (w.piece p).next).next 0 (layout (v :: ws)) := by
  have hgap : recognize ([w.separator] ++ layout (v :: ws)) =
      some (if w.endsLine then .lineEnd else .blank, [w.separator].length) := by
    obtain ⟨c, s, hlayout, hc⟩ := exists_head_layout v ws
    rw [hlayout, Word.separator]
    cases w.endsLine with
    | true => rfl
    | false =>
      have htake : (c :: s).takeWhile isGap = [] := by simp [hc]
      simp only [Bool.false_eq_true, if_false, singleton_append]
      rw [recognize, if_pos (by decide), htake]
      · rfl
      all_goals simp
  have hrest := piecesFrom_of_recognize (cons_ne_nil _ _) hgap (w.piece p).next
  rw [singleton_append] at hrest
  rw [layout, piecesFrom_of_recognize w.image_ne_nil (w.sound _ (w.separated _))]
  exact congrArg (w.piece p :: ·) hrest

theorem piecesFrom_layout_singleton (w : Word) (p : Position) :
    piecesFrom p 0 (layout [w]) = [w.piece p] := by
  have hsound := w.sound [] (by simp [Separated])
  have hpieces := piecesFrom_of_recognize w.image_ne_nil hsound p
  rw [append_nil] at hpieces
  exact hpieces

def Lexeme.word (t : Token) : Kind × String := (t.kind, t.image)

/-- After an equals sign the next token stands on the same line. -/
def Lexeme.Joined (a b : Token) : Prop := a.kind = .equals → b.first.line = a.last.line

theorem line_next_gap (w : Word) (p : Position) (h : w.endsLine = false) :
    (w.gap p).next.line = p.line := by
  simp [Word.gap, h, Piece.next, Lexer.after, Lexer.afterRun]

/-- **The tokens of words that are laid out in a text** are these words. -/
theorem tokens_layout (ws : List Word) (p : Position) :
    ((piecesFrom p 0 (layout ws)).filterMap token?).map Lexeme.word =
        ws.map (fun w => (w.kind, w.text)) ∧
      ((piecesFrom p 0 (layout ws)).filterMap token?).IsChain Lexeme.Joined ∧
      ∀ t ∈ ((piecesFrom p 0 (layout ws)).filterMap token?).head?, t.first.line = p.line := by
  induction ws generalizing p with
  | nil => exact ⟨rfl, .nil, by simp [layout, piecesFrom]⟩
  | cons w ws ih =>
    cases ws with
    | nil =>
      rw [piecesFrom_layout_singleton]
      refine ⟨rfl, .singleton _, ?_⟩
      simp [Word.piece, token?, lexeme]
    | cons v ws =>
      obtain ⟨hwords, hchain, hhead⟩ := ih (w.gap (w.piece p).next).next
      have htoken : (w.piece p).token? = some ((w.piece p).lexeme w.kind) := rfl
      have hnone : (w.gap (w.piece p).next).token? = none := by
        rw [Word.gap, token?]
        cases w.endsLine <;> rfl
      rw [piecesFrom_layout, filterMap_cons_some htoken, filterMap_cons_none hnone]
      refine ⟨by rw [map_cons, hwords]; rfl, ?_, ?_⟩
      · refine isChain_cons.2 ⟨fun t ht hequals => ?_, hchain⟩
        rw [hhead t ht, line_next_gap w _ (w.joins hequals)]
        rfl
      · simp [Word.piece, lexeme]

theorem filterMap_layout {α : Type} {f : Piece → Option α}
    (hf : ∀ (w : Word) p, f (w.piece p) = none ∧ f (w.gap p) = none) (ws : List Word)
    (p : Position) : (piecesFrom p 0 (layout ws)).filterMap f = [] := by
  induction ws generalizing p with
  | nil => rfl
  | cons w ws ih =>
    cases ws with
    | nil => rw [piecesFrom_layout_singleton, filterMap_cons_none (hf w p).1, filterMap_nil]
    | cons v ws =>
      rw [piecesFrom_layout, filterMap_cons_none (hf w p).1, filterMap_cons_none (hf w _).2, ih]

theorem strays_layout (ws : List Word) (p : Position) :
    (piecesFrom p 0 (layout ws)).filterMap stray? = [] := by
  refine filterMap_layout (fun w p => ⟨rfl, ?_⟩) ws p
  rw [Word.gap, stray?]
  cases w.endsLine <;> rfl

theorem comments_layout (ws : List Word) (p : Position) :
    (piecesFrom p 0 (layout ws)).filterMap comment? = [] := by
  refine filterMap_layout (fun w p => ⟨rfl, ?_⟩) ws p
  rw [Word.gap, comment?]
  cases w.endsLine <;> rfl

end MessageSchema
