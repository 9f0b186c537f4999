/-
  Integers as doubles.

  A default of an integer type is written in decimal, with as many digits as one likes, and
  kept as a double.  It denotes the integer that is written just if there is a double that
  does: a number of 53 bits, shifted left by at most 971 bits.

  * `Binary64.denotes_ofScientific`: an integer that a double can denote is read as that double.
-/
import MessageSchema.Model.Default
import MessageSchema.Proofs.Reading
import Mathlib

namespace MessageSchema

namespace Binary64

open Float.Model Float.Model.UnpackedFloat

variable {m : Nat} {e : Int}

/-! ## The integers that doubles denote -/

/-- A number with a sign, a mantissa and an exponent denotes an integer. -/
def UnpackedDenotes (n : Int) : UnpackedFloat → Prop
  | .zero _ => n = 0
  | .finite sign m e _ => n * (2 ^ (-e).toNat : Nat) = sign.apply (m * 2 ^ e.toNat : Nat)
  | .infinity _ | .notANumber => False

instance (n : Int) : (u : UnpackedFloat) → Decidable (UnpackedDenotes n u)
  | .zero _ => inferInstanceAs (Decidable (n = 0))
  | .finite sign m e _ =>
    inferInstanceAs (Decidable (n * (2 ^ (-e).toNat : Nat) = sign.apply (m * 2 ^ e.toNat : Nat)))
  | .infinity _ | .notANumber => inferInstanceAs (Decidable False)

/-- A double is finite and denotes an integer. -/
def Denotes (x : Float) (n : Int) : Prop := UnpackedDenotes n x.toModel.unpack

instance (x : Float) (n : Int) : Decidable (Denotes x n) :=
  inferInstanceAs (Decidable (UnpackedDenotes n _))

/-- A number of 53 bits, shifted left. -/
def Representable (k : Nat) : Prop := ∃ m e, m < 2 ^ 53 ∧ e ≤ 971 ∧ k = m * 2 ^ e

theorem representable_of_le {k : Nat} (h : k ≤ 2 ^ 53) : Representable k := by
  rcases h.lt_or_eq with hlt | rfl
  · exact ⟨k, 0, hlt, by decide, by simp⟩
  · exact ⟨1, 53, by decide, by decide, by decide⟩

theorem Representable.countDigits_le {k : Nat} (h : Representable k) :
    Decimal.countDigits k ≤ 311 := by
  obtain ⟨m, e, hm, he, rfl⟩ := h
  have hpow : ∀ a b, a ≤ b → 2 ^ a ≤ 2 ^ b := fun _ _ => Nat.pow_le_pow_right (by decide)
  have hdigits : ∀ n l, 0 < l → n < 10 ^ l → Decimal.countDigits n ≤ l := fun _ _ hl =>
    (Nat.length_toDigits_le_iff (by decide) hl).2
  refine hdigits _ 311 (by decide) ?_
  calc m * 2 ^ e < 2 ^ 53 * 2 ^ e := Nat.mul_lt_mul_of_pos_right hm (Nat.two_pow_pos e)
    _ = 2 ^ (53 + e) := (Nat.pow_add 2 53 e).symm
    _ < 10 ^ 311 := (hpow _ 1024 (by omega)).trans_lt (by decide +kernel)

theorem bounds_of_unpack {b : BitVec Format.binary64.numBits} {sign : Sign} {hm : 0 < m}
    (h : UnpackedFloat.unpack Format.binary64 b = .finite sign m e hm) : m < 2 ^ 53 ∧ e ≤ 971 := by
  have hexponent : (unpackExponent b).toNat < 2 ^ 11 := BitVec.isLt _
  have hmantissa : (unpackMantissa b).toNat < 2 ^ 52 := BitVec.isLt _
  have hbias : (Format.binary64.exponentBias + Format.binary64.mantissaBitsWithoutImplicit : Int) =
    1075 := rfl
  rw [UnpackedFloat.unpack] at h
  split at h
  · split at h <;> cases h
  · next hfinite =>
    have hne : (unpackExponent b).toNat ≠ 2047 := fun heq => hfinite (BitVec.eq_of_toNat_eq heq)
    split at h
    · next hzero =>
      split at h
      · cases h
      · cases h
        rw [hbias, hzero]
        exact ⟨by omega, by decide⟩
    · cases h
      rw [hbias]
      exact ⟨BitVec.isLt _, by omega⟩

/-- **Doubles denote shifted numbers of 53 bits only.** -/
theorem representable_of_denotes {x : Float} {n : Int} (h : Denotes x n) :
    Representable n.natAbs := by
  rw [Denotes] at h
  cases hx : x.toModel.unpack with
  | infinity | notANumber =>
    rw [hx] at h
    cases h
  | zero =>
    rw [hx] at h
    obtain rfl : n = 0 := h
    exact representable_of_le (by decide)
  | finite sign m e hm =>
    obtain ⟨hlt, hle⟩ := bounds_of_unpack hx
    rw [hx] at h
    have habs : n.natAbs * 2 ^ (-e).toNat = m * 2 ^ e.toNat := by
      have hnat := congrArg Int.natAbs h
      rw [Int.natAbs_mul, Int.natAbs_natCast] at hnat
      rw [hnat]
      cases sign with
      | positive => exact Int.natAbs_natCast _
      | negative => exact (Int.natAbs_neg _).trans (Int.natAbs_natCast _)
    by_cases he : 0 ≤ e
    · refine ⟨m, e.toNat, hlt, by omega, ?_⟩
      rwa [show (-e).toNat = 0 by omega, Nat.pow_zero, Nat.mul_one] at habs
    · rw [show e.toNat = 0 by omega, Nat.pow_zero, Nat.mul_one] at habs
      have hk : n.natAbs ≤ m := habs ▸ Nat.le_mul_of_pos_right _ (Nat.two_pow_pos _)
      exact representable_of_le (by omega)

/-! ## Mantissas of 53 bits -/

theorem log2_mul_pow (hm : 0 < m) (k : Nat) : (m * 2 ^ k).log2 = m.log2 + k := by
  have hpos := Nat.mul_pos hm (Nat.two_pow_pos k)
  obtain ⟨hlower, hupper⟩ := (Nat.log2_eq_iff hm.ne').1 rfl
  rw [Nat.log2_eq_iff hpos.ne', Nat.add_right_comm, Nat.pow_add, Nat.pow_add]
  exact ⟨Nat.mul_le_mul_right _ hlower, Nat.mul_lt_mul_of_pos_right hupper (Nat.two_pow_pos k)⟩

/-- A mantissa of just 53 bits and its exponent, for a number that is not too small for a
    double to have such a mantissa, nor too great. -/
structure IsNormal (m : Nat) (e : Int) : Prop where
  lower : 2 ^ 52 ≤ m
  upper : m < 2 ^ 53
  least : -1074 ≤ e
  most : e ≤ 971

namespace IsNormal

variable {m : Nat} {e : Int} (h : IsNormal m e)
include h

theorem pos : 0 < m := Nat.lt_of_lt_of_le (by decide) h.lower

theorem log2 : m.log2 = 52 := (Nat.log2_eq_iff h.pos.ne').2 ⟨h.lower, h.upper⟩

theorem targetExponent (k : Nat) :
    Format.binary64.targetExponent (totalExponent (m * 2 ^ k) (e - k)) = e := by
  have hleast := h.least
  rw [Format.targetExponent, totalExponent, log2_mul_pow h.pos, h.log2,
    show Format.binary64.minExponent = -1074 from rfl,
    show Format.binary64.mantissaBits = 53 from rfl]
  omega

end IsNormal

theorem toNat_one_append (hlower : 2 ^ 52 ≤ m) (hupper : m < 2 ^ 53) :
    (1#1 ++ BitVec.ofNat 52 m).toNat = m := by
  rw [BitVec.toNat_append, BitVec.toNat_ofNat, Nat.shiftLeft_eq]
  show 2 ^ 52 ||| m % 2 ^ 52 = m
  rw [Nat.or_comm, Nat.or_two_pow_eq_add_of_lt (Nat.mod_lt m (Nat.two_pow_pos 52))]
  omega

/-- **A number with a mantissa of 53 bits is packed without a loss.** -/
theorem unpack_pack {sign : Sign} (h : IsNormal m e) :
    (Float.Model.pack (.finite sign m e h.pos)).unpack = .finite sign m e h.pos := by
  have hleast := h.least
  have hmost := h.most
  -- the exponent is stored with its bias
  have hbias : (e + Format.binary64.exponentBias + (52 : Nat)).toNat = (e + 1075).toNat := by
    rw [show (Format.binary64.exponentBias : Int) = 1023 from rfl]
    omega
  have hstored : (BitVec.ofNat 11 (e + 1075).toNat).toNat = (e + 1075).toNat := by
    rw [BitVec.toNat_ofNat]
    omega
  have hpacked : UnpackedFloat.pack Format.binary64 (.finite sign m e h.pos) =
      packComponents Format.binary64 sign (BitVec.ofNat 11 (e + 1075).toNat)
      (BitVec.ofNat 52 m) := by
    have hsmall : ¬ 2 ^ 11 ≤ (e + 1075).toNat + 1 := by omega
    rw [UnpackedFloat.pack, hbias, if_neg hsmall, if_pos (by rw [h.log2]; rfl)]
  show UnpackedFloat.unpack Format.binary64 (UnpackedFloat.pack Format.binary64 _) = _
  rw [hpacked, UnpackedFloat.unpack]
  simp only [unpackMantissa_packComponents, unpackExponent_packComponents,
    unpackSign_packComponents, Sign.ofBitVec_toBitVec]
  have hfinite : BitVec.ofNat 11 (e + 1075).toNat ≠ -1#11 := by
    intro heq
    have hall := congrArg BitVec.toNat heq
    rw [hstored, show (-1#11).toNat = 2047 from rfl] at hall
    omega
  have hnonzero : BitVec.ofNat 11 (e + 1075).toNat ≠ 0#11 := by
    intro heq
    have hall := congrArg BitVec.toNat heq
    rw [hstored, BitVec.toNat_ofNat, Nat.zero_mod] at hall
    omega
  rw [if_neg hfinite, if_neg hnonzero]
  congr 1
  · exact toNat_one_append h.lower h.upper
  · rw [hstored, show (Format.binary64.exponentBias + Format.binary64.mantissaBitsWithoutImplicit :
      Int) = 1075 from rfl]
    omega

theorem shiftRight_mul_pow (m k : Nat) :
    ExtendedMantissa.ofMantissaAndAccuracy (m * 2 ^ k) .exact >>> k =
      .ofMantissaAndAccuracy m .exact := by
  induction k generalizing m with
  | zero => rw [Nat.pow_zero, Nat.mul_one]; rfl
  | succ k ih =>
    have hlast : ∀ a : ExtendedMantissa, a >>> (k + 1) = (a >>> k).shiftRightOne := fun _ => rfl
    rw [hlast, Nat.pow_succ', ← Nat.mul_assoc, ih]
    simp [ExtendedMantissa.shiftRightOne, ExtendedMantissa.ofMantissaAndAccuracy]

/-- **A number with a mantissa of 53 bits is rounded to itself**, with zeros behind it. -/
theorem roundWithAccuracy_mul_pow (sign : Sign) (h : IsNormal m e) (k : Nat) :
    roundWithAccuracy Format.binary64 sign (m * 2 ^ k) (e - k) .exact = .finite sign m e h.pos := by
  have hfirst : shiftToTargetExponent Format.binary64 (m * 2 ^ k) (e - k) .exact =
      (.ofMantissaAndAccuracy m .exact, e) := by
    rw [shiftToTargetExponent, h.targetExponent, shiftToExponent, show (e - (e - k)).toNat =
      k by omega, shiftRight_mul_pow]
    congr 1
    omega
  have hsecond : shiftToTargetExponent Format.binary64 m e .exact =
      (.ofMantissaAndAccuracy m .exact, e) := by
    have htarget := h.targetExponent 0
    rw [Nat.pow_zero, Nat.mul_one, Int.natCast_zero, Int.sub_zero] at htarget
    rw [shiftToTargetExponent, htarget, shiftToExponent, Int.sub_self, Int.toNat_zero,
      Int.natCast_zero, Int.add_zero]
    rfl
  have hround : (ExtendedMantissa.ofMantissaAndAccuracy m .exact).roundedMantissa = m := rfl
  simp only [roundWithAccuracy, hfirst, hround, hsecond]
  exact dif_neg h.pos.ne'

/-! ## Integers -/

/-- A positive integer is written with a mantissa of 53 bits. -/
structure HasMantissa (k m : Nat) (e : Int) : Prop extends IsNormal m e where
  /-- no more bits are put behind the point than there are in the mantissa -/
  whole : -52 ≤ e
  value : k * 2 ^ (-e).toNat = m * 2 ^ e.toNat

theorem Representable.exists_hasMantissa {k : Nat} (h : Representable k) (hk : 0 < k) :
    ∃ m e, HasMantissa k m e := by
  obtain ⟨m, j, hm, hj, rfl⟩ := h
  have hpos : 0 < m := Nat.pos_of_mul_pos_right hk
  obtain ⟨hlower, hupper⟩ := (Nat.log2_eq_iff hpos.ne').1 rfl
  have hbits : m.log2 < 53 := (Nat.log2_lt hpos.ne').2 hm
  refine ⟨m * 2 ^ (52 - m.log2), j + m.log2 - 52, ⟨?_, ?_, by omega, by omega⟩, by omega, ?_⟩
  · have hmul := Nat.mul_le_mul_right (2 ^ (52 - m.log2)) hlower
    rwa [← Nat.pow_add, show m.log2 + (52 - m.log2) = 52 by omega] at hmul
  · have hmul := Nat.mul_lt_mul_of_pos_right hupper (Nat.two_pow_pos (52 - m.log2))
    rwa [← Nat.pow_add, show m.log2 + 1 + (52 - m.log2) = 53 by omega] at hmul
  · rw [Nat.mul_assoc, Nat.mul_assoc, ← Nat.pow_add, ← Nat.pow_add]
    congr 2
    omega

namespace HasMantissa

variable {k m : Nat} {e : Int} (h : HasMantissa k m e)
include h

theorem mul_pow : k * 2 ^ 53 = m * 2 ^ (e + 53).toNat := by
  have hwhole := h.whole
  have hvalue := congrArg (· * 2 ^ (53 - (-e).toNat)) h.value
  simp only [Nat.mul_assoc, ← Nat.pow_add] at hvalue
  rwa [show (-e).toNat + (53 - (-e).toNat) = 53 by omega,
    show e.toNat + (53 - (-e).toNat) = (e + 53).toNat by omega] at hvalue

theorem eq_mul_pow (hk : k < 2 ^ 53) : e ≤ 0 ∧ k * 2 ^ (-e).toNat = m := by
  have hle : e ≤ 0 := by
    by_contra hpos
    have hvalue := h.value
    rw [show (-e).toNat = 0 by omega, Nat.pow_zero, Nat.mul_one,
      show e.toNat = e.toNat - 1 + 1 by omega, Nat.pow_succ', ← Nat.mul_assoc] at hvalue
    have hlarge : m * 2 ≤ k := hvalue ▸ Nat.le_mul_of_pos_right _ (Nat.two_pow_pos _)
    have := h.lower
    omega
  have hvalue := h.value
  rw [show e.toNat = 0 by omega, Nat.pow_zero, Nat.mul_one] at hvalue
  exact ⟨hle, hvalue⟩

/-- **A number of at most 53 bits is rounded to its mantissa.** -/
theorem round_eq (hk : k < 2 ^ 53) :
    round Format.binary64 .positive k 0 = .finite .positive m e h.pos := by
  obtain ⟨hle, hvalue⟩ := h.eq_mul_pow hk
  have hpos : 0 < k := Nat.pos_of_mul_pos_right (hvalue ▸ h.pos)
  have hlog : k.log2 + (-e).toNat = 52 := by
    rw [← log2_mul_pow hpos, hvalue, h.log2]
  have htarget : Format.binary64.targetExponent (totalExponent k 0) = e := by
    rw [Format.targetExponent, totalExponent, show Format.binary64.minExponent = -1074 from rfl,
      show Format.binary64.mantissaBits = 53 from rfl]
    omega
  have hdecrease : decreaseExponent k 0 e = (m, e) := by
    rw [decreaseExponent, Int.zero_sub, Nat.shiftLeft_eq, hvalue]
    congr 1
    omega
  have hround := roundWithAccuracy_mul_pow .positive h.toIsNormal 0
  rw [Nat.pow_zero, Nat.mul_one, Int.natCast_zero, Int.sub_zero] at hround
  rw [UnpackedFloat.round, htarget, hdecrease]
  exact hround

theorem unpack_toFloat (hk : k < 2 ^ 53) :
    k.toUInt64.toFloat.toModel.unpack = .finite .positive m e h.pos := by
  have hpos : 0 < k := Nat.pos_of_mul_pos_right ((h.eq_mul_pow hk).2 ▸ h.pos)
  have hnat : k.toUInt64.toNat = k := Nat.mod_eq_of_lt (by omega)
  have hround : ofUInt64 Format.binary64 k.toUInt64 = .finite .positive m e h.pos := by
    rw [UnpackedFloat.ofUInt64, hnat, UnpackedFloat.ofNat, UnpackedFloat.ofInt,
      UnpackedFloat.normalize, Int.compare_eq_gt.2 (by omega), ← h.round_eq hk]
    rfl
  show (Float.Model.pack (ofUInt64 Format.binary64 k.toUInt64)).unpack = _
  rw [hround, unpack_pack h.toIsNormal]

/-- **An integer with a mantissa of 53 bits is read as that.** -/
theorem unpack_ofScientific (hk : 0 < k) :
    (Float.ofScientific k false 0).toModel.unpack = .finite .positive m e h.pos := by
  have hwhole := h.whole
  by_cases hsmall : k < 2 ^ 53
  · -- it is multiplied by one
    have hone : (Float.ofBits 0x3FF0000000000000).toModel.unpack = .finite .positive (2 ^ 52) (-52)
      (by decide) := rfl
    have hmul : Float.ofScientific k false 0 = k.toUInt64.toFloat *
        Float.ofBits 0x3FF0000000000000 := by
      rw [Float.ofScientific, dif_pos ⟨hsmall, by decide⟩]
      rfl
    have hround := roundWithAccuracy_mul_pow .positive h.toIsNormal 52
    rw [hmul]
    show (Float.Model.pack (mul Format.binary64 k.toUInt64.toFloat.toModel.unpack
      (Float.ofBits 0x3FF0000000000000).toModel.unpack)).unpack = _
    rw [h.unpack_toFloat hsmall, hone, UnpackedFloat.mul]
    exact (congrArg (fun u => (Float.Model.pack u).unpack) hround).trans (unpack_pack h.toIsNormal)
  · have hround := roundWithAccuracy_mul_pow .positive h.toIsNormal (e + 53).toNat
    rw [← h.mul_pow, show e - (e + 53).toNat = -53 by omega] at hround
    have hmodel : Float.ofScientific k false 0 = .ofModel (Float.Model.ofScientific k 0) := by
      rw [Float.ofScientific, dif_neg fun hfast => hsmall hfast.1]
      rfl
    have hscientific : ofScientific Format.binary64 k 0 = .finite .positive m e h.pos := by
      have hlarge : ¬ (0 : Int) < -((2 ^ 11 : Int) + k.log2) := by omega
      rw [UnpackedFloat.ofScientific, dif_neg hk.ne', if_neg (by decide), if_neg hlarge,
        if_pos (Int.le_refl 0), UnpackedFloat.mul]
      rw [← hround, show Format.binary64.mantissaBits = 53 from rfl, Nat.shiftLeft_eq,
        Int.toNat_zero, Nat.pow_zero, Nat.mul_one]
      rfl
    rw [hmodel]
    show (Float.Model.pack (ofScientific Format.binary64 k 0)).unpack = _
    rw [hscientific, unpack_pack h.toIsNormal]

theorem unpackedDenotes (sign : Sign) :
    UnpackedDenotes (sign.apply k) (.finite sign m e h.pos) := by
  have hvalue : (k : Int) * (2 ^ (-e).toNat : Nat) = (m * 2 ^ e.toNat : Nat) := by
    rw [← h.value]
    exact (Int.natCast_mul _ _).symm
  show sign.apply k * (2 ^ (-e).toNat : Nat) = sign.apply (m * 2 ^ e.toNat : Nat)
  cases sign with
  | positive => exact hvalue
  | negative => rw [Sign.apply, Sign.apply, Int.neg_mul, hvalue]

end HasMantissa

theorem unpack_neg {x : Float} (h : IsNormal m e)
    (hx : x.toModel.unpack = .finite .positive m e h.pos) :
    (-x).toModel.unpack = .finite .negative m e h.pos := by
  show (Float.Model.pack x.toModel.unpack.neg).unpack = _
  rw [hx]
  exact unpack_pack h

end Binary64

/-! ## Decimals -/

namespace Decimal

open Numeral Binary64

/-- The integer that a decimal without an exponent denotes. -/
def integer (d : Decimal) : Int := if d.negative then -(d.digits : Int) else d.digits

theorem natAbs_integer (d : Decimal) : d.integer.natAbs = d.digits := by
  rw [integer]
  split
  · exact (Int.natAbs_neg _).trans (Int.natAbs_natCast _)
  · exact Int.natAbs_natCast _

theorem exists_read?_of_integer? {s : String} {n : Int} (h : integer? s = some n) :
    ∃ d, read? s = some d ∧ d.exponent = 0 ∧ d.integer = n := by
  rcases hsign : splitSign s.toList with ⟨negative, ds⟩
  rw [integer?, hsign] at h
  simp only [Bool.or_eq_true, List.isEmpty_iff, Bool.not_eq_true', Option.ite_none_left_eq_some,
    not_or, Bool.not_eq_false] at h
  obtain ⟨⟨hne, hall⟩, hn⟩ := h
  have hdigits : splitDigits ds = (ds, []) := by
    rw [splitDigits, List.takeWhile_eq_self_iff.2 (List.all_eq_true.1 hall),
      List.dropWhile_eq_nil_iff.2 (List.all_eq_true.1 hall)]
  refine ⟨⟨negative, value ds, 0⟩, ?_, rfl, Option.some.inj hn⟩
  rw [read?, hsign]
  simp [hdigits, splitFraction, splitExponent, hne, value]

/-- **A decimal without an exponent is kept exactly just if a double can denote it.** -/
theorem denotes_toFloat_iff {d : Decimal} (hd : d.exponent = 0) :
    Denotes d.toFloat d.integer ↔ Representable d.digits := by
  constructor
  · intro h
    rw [← natAbs_integer]
    exact representable_of_denotes h
  · intro h
    obtain ⟨negative, k, e⟩ := d
    obtain rfl : e = 0 := hd
    rcases Nat.eq_zero_or_pos k with rfl | hk
    · cases negative <;> decide +kernel
    · obtain ⟨m, e, hm⟩ := h.exists_hasMantissa hk
      have hcount : countDigits k ≤ 311 := h.countDigits_le
      have hmagnitude : (Decimal.mk negative k 0).magnitude = Float.ofScientific k false 0 := by
        rw [magnitude]
        simp only [Int.add_zero]
        rw [if_neg (by omega), if_neg (by omega)]
        rfl
      have hunpack := hm.unpack_ofScientific hk
      rw [← hmagnitude] at hunpack
      cases negative with
      | false =>
        show UnpackedDenotes k (Decimal.mk false k 0).magnitude.toModel.unpack
        rw [hunpack]
        exact hm.unpackedDenotes .positive
      | true =>
        show UnpackedDenotes (-k) (-(Decimal.mk true k 0).magnitude).toModel.unpack
        rw [unpack_neg hm.toIsNormal hunpack]
        exact hm.unpackedDenotes .negative

end Decimal

/-! ## Defaults -/

namespace DefaultValue

open Binary64

theorem readInteger_eq_ok {text : String} {d : Decimal} (h : readInteger text = .ok d) :
    Numeral.integer? text = some d.integer ∧ d.exponent = 0 := by
  rw [readInteger] at h
  split at h
  · next n _ hn hread =>
    cases h
    obtain ⟨d', hread', hexponent, rfl⟩ := Decimal.exists_read?_of_integer? hn
    cases hread.symm.trans hread'
    exact ⟨hn, hexponent⟩
  · cases h

/-- **Just when a default of an integer type is exact.**  It is read from a decimal text and
    kept as a double.  The double denotes the integer that the text does just if some double
    does: if it is a number of 53 bits, shifted left by at most 971 bits.  So all bytes and all
    integers up to `2 ^ 53` are exact. -/
theorem denotes_default_iff {valuesOf : String → List Model.EnumValue} {text : String}
    {p : Primitive} (hp : p = .int ∨ p = .byte) {D : DefaultValue}
    (h : read valuesOf text (.primitive p) = .ok D) :
    ∃ n x, Numeral.integer? text = some n ∧ D = .number x ∧ (Denotes x n ↔ Representable n.natAbs) ∧
      (p = .byte ∨ n.natAbs ≤ 2 ^ 53 → Denotes x n) := by
  have hread : ∃ d, readInteger text = .ok d ∧ D = .number d.toFloat ∧
      (p = .byte → d.digits ≤ 255) := by
    rcases hp with rfl | rfl
    · obtain ⟨d, hd, h⟩ := bind_eq_ok h
      cases h
      exact ⟨d, hd, rfl, fun hbyte => by cases hbyte⟩
    · obtain ⟨d, hd, h⟩ := bind_eq_ok h
      simp only at h
      split at h
      · cases h
      · next hrange =>
        cases h
        simp only [Bool.or_eq_true, decide_eq_true_eq, not_or, Nat.not_lt] at hrange
        exact ⟨d, hd, rfl, fun _ => hrange.2⟩
  obtain ⟨d, hd, rfl, hbyte⟩ := hread
  obtain ⟨hinteger, hexponent⟩ := readInteger_eq_ok hd
  have hiff := d.denotes_toFloat_iff hexponent
  rw [← d.natAbs_integer] at hiff hbyte
  refine ⟨d.integer, d.toFloat, hinteger, rfl, hiff, fun hsmall => hiff.2 (representable_of_le ?_)⟩
  rcases hsmall with hp | hle
  · have := hbyte hp
    omega
  · exact hle

theorem denotes_default_iff_zeros :
    ∃ x, read (fun _ => []) "-9007199254740992000" (.primitive .int) = .ok (.number x) ∧
    Denotes x (-9007199254740992000) := by
  obtain ⟨D, hD⟩ : ∃ D, read (fun _ => []) "-9007199254740992000" (.primitive .int) = .ok D :=
    ⟨_, rfl⟩
  obtain ⟨n, x, hn, rfl, hiff, -⟩ := denotes_default_iff (Or.inl rfl) hD
  obtain rfl : -9007199254740992000 = n := Option.some.inj hn
  exact ⟨x, hD, hiff.2 ⟨125, 56, by decide, by decide, by decide⟩⟩

theorem read_int_rounded :
    ∃ x, read (fun _ => []) "9007199254740993" (.primitive .int) = .ok (.number x) ∧
    Denotes x 9007199254740992 ∧ ¬ Denotes x 9007199254740993 :=
  ⟨(Decimal.mk false 9007199254740993 0).toFloat, rfl, by decide +kernel, by decide +kernel⟩

end DefaultValue

end MessageSchema
