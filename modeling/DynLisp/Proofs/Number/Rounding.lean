import DynLisp.Number.Decimal
import Mathlib

/-!
# Rounding to binary64

What the float nearest to a number is, for numbers too large to be subnormal and too small to
overflow. The significand is that of the number, rounded by `roundHalfEven`
(`roundWithAccuracy_eq`), and a float is unpacked to what it was rounded to
(`unpack_pack_roundWithAccuracy`).

Shifting a significand to the right one bit at a time keeps of the lost bits only how they compare
to one half; that this is what `roundHalfEven` asks of a remainder is `shiftRight_quotient` and
`roundedMantissa_quotient`.
-/

namespace DynLisp

namespace Rounding

open Float.Model Float.Model.UnpackedFloat Float.Model.Format

/-! ## Lost bits -/

/-- A significand with a denominator, as far as its rounding depends on what is left of the
division. -/
def quotient (m den : ℕ) : ExtendedMantissa where
  mantissa := m / den
  roundBit := decide (den ≤ 2 * (m % den))
  stickyBit := decide (m % den ≠ 0 ∧ 2 * (m % den) ≠ den)

theorem roundedMantissa_quotient (m : ℕ) {den : ℕ} (hden : 0 < den) :
    (quotient m den).roundedMantissa = roundHalfEven m den := by
  have hlt := Nat.mod_lt m hden
  simp only [quotient, ExtendedMantissa.roundedMantissa, roundHalfEven]
  rcases Nat.lt_trichotomy (2 * (m % den)) den with hless | htie | hmore
  · rw [if_pos hless, decide_eq_false (Nat.not_le.2 hless)]
    by_cases hexact : m % den = 0
    · rw [decide_eq_false fun h => h.1 hexact]
      rfl
    · rw [decide_eq_true ⟨hexact, hless.ne⟩]
      rfl
  · rw [if_neg htie.not_lt, if_neg htie.not_gt, decide_eq_true htie.ge,
      decide_eq_false fun h => h.2 htie]
    rfl
  · have hrest : m % den ≠ 0 := by omega
    rw [if_neg hmore.not_gt, if_pos hmore, decide_eq_true hmore.le,
      decide_eq_true ⟨hrest, hmore.ne'⟩]
    rfl

theorem shiftRightOne_quotient (m k : ℕ) :
    (quotient m (2 ^ k)).shiftRightOne = quotient m (2 ^ (k + 1)) := by
  have hrest : m % 2 ^ k < 2 ^ k := Nat.mod_lt m (Nat.two_pow_pos k)
  have hmod : m % 2 ^ (k + 1) = m % 2 ^ k + 2 ^ k * (m / 2 ^ k % 2) := Nat.mod_pow_succ
  have hbit : m / 2 ^ k % 2 = 0 ∨ m / 2 ^ k % 2 = 1 := Nat.mod_two_eq_zero_or_one _
  have hpow : 2 ^ (k + 1) = 2 ^ k * 2 := Nat.pow_succ 2 k
  have hround : (m / 2 ^ k % 2 != 0) = decide (2 ^ (k + 1) ≤ 2 * (m % 2 ^ (k + 1))) := by
    rw [Bool.eq_iff_iff, bne_iff_ne, decide_eq_true_eq, hmod, hpow]
    rcases hbit with h | h <;> rw [h] <;> omega
  have hsticky : (decide (2 ^ k ≤ 2 * (m % 2 ^ k)) ||
      decide (m % 2 ^ k ≠ 0 ∧ 2 * (m % 2 ^ k) ≠ 2 ^ k)) =
      decide (m % 2 ^ (k + 1) ≠ 0 ∧ 2 * (m % 2 ^ (k + 1)) ≠ 2 ^ (k + 1)) := by
    rw [← Bool.decide_or, decide_eq_decide, hmod, hpow]
    rcases hbit with h | h <;> rw [h] <;> omega
  simp only [quotient, ExtendedMantissa.shiftRightOne, hround, hsticky, Nat.div_div_eq_div_mul,
    ← hpow]

theorem shiftRight_quotient (m k : ℕ) :
    ExtendedMantissa.ofMantissaAndAccuracy m .exact >>> k = quotient m (2 ^ k) := by
  induction k with
  | zero => simp [quotient, ExtendedMantissa.ofMantissaAndAccuracy, HShiftRight.hShiftRight,
      Nat.repeat, Nat.mod_one]
  | succ k ih =>
    rw [← shiftRightOne_quotient, ← ih]
    rfl

/-! ## Rounding to 53 bits -/

/-- A significand of 53 bits, which all but the subnormal floats have. -/
def IsNormal (m : ℕ) : Prop :=
  2 ^ 52 ≤ m ∧ m < 2 ^ 53

/-- A significand of 53 bits before a carry, which rounding may have led to. -/
def IsRounded (m : ℕ) : Prop :=
  2 ^ 52 ≤ m ∧ m ≤ 2 ^ 53

theorem IsNormal.isRounded {m : ℕ} (h : IsNormal m) : IsRounded m :=
  ⟨h.1, h.2.le⟩

theorem IsNormal.pos {m : ℕ} (h : IsNormal m) : 0 < m :=
  Nat.lt_of_lt_of_le (by decide) h.1

theorem IsRounded.cases {m : ℕ} (h : IsRounded m) : m = 2 ^ 53 ∨ IsNormal m :=
  h.2.eq_or_lt.imp_right fun hlt => ⟨h.1, hlt⟩

/-- What rounding adds to the exponent: one if it led to another bit. -/
def carry (m : ℕ) : ℕ :=
  if m = 2 ^ 53 then 1 else 0

/-- A rounded significand that has 53 bits again. -/
def carried (m : ℕ) : ℕ :=
  if m = 2 ^ 53 then 2 ^ 52 else m

theorem carry_le_one (m : ℕ) : carry m ≤ 1 := by
  unfold carry
  split <;> omega

theorem carry_of_isNormal {m : ℕ} (h : IsNormal m) : carry m = 0 :=
  if_neg h.2.ne

theorem carried_of_isNormal {m : ℕ} (h : IsNormal m) : carried m = m :=
  if_neg h.2.ne

theorem isNormal_carried {m : ℕ} (h : IsRounded m) : IsNormal (carried m) := by
  rcases h.cases with rfl | hnormal
  · exact ⟨Nat.le_refl _, by decide⟩
  · exact (carried_of_isNormal hnormal).symm ▸ hnormal

theorem log2_of_isNormal {m : ℕ} (h : IsNormal m) : m.log2 = 52 :=
  (Nat.log2_eq_iff h.pos.ne').2 h

theorem log2_of_isRounded {m : ℕ} (h : IsRounded m) : m.log2 = 52 + carry m := by
  rcases h.cases with rfl | hnormal
  · exact Nat.log2_two_pow
  · rw [log2_of_isNormal hnormal, carry_of_isNormal hnormal]

theorem shiftToTargetExponent_eq {m k : ℕ} {e : ℤ} (hlog : m.log2 = 52 + k)
    (he : -1074 ≤ e + k) :
    shiftToTargetExponent binary64 m e .exact = (quotient m (2 ^ k), e + k) := by
  have htarget : binary64.targetExponent (totalExponent m e) = e + k := by
    show max ((m.log2 + 1 + e : ℤ) - 53) (-1074) = e + k
    omega
  have hshift : (e + k - e).toNat = k := by omega
  simp only [shiftToTargetExponent, shiftToExponent, htarget, hshift, shiftRight_quotient]

/-- Rounding to 53 bits: to the nearest significand, with the exponent as it is after the carry. -/
theorem roundWithAccuracy_eq {m k q : ℕ} {e : ℤ} (s : Sign) (hlog : m.log2 = 52 + k)
    (he : -1074 ≤ e + k) (hq : roundHalfEven m (2 ^ k) = q) (hrounded : IsRounded q)
    (hpos : 0 < carried q) :
    roundWithAccuracy binary64 s m e .exact = .finite s (carried q) (e + k + carry q) hpos := by
  -- The second shift takes back the bit that rounding may have added.
  have hsecond : shiftToTargetExponent binary64 q (e + k) .exact =
      (quotient q (2 ^ carry q), e + k + carry q) :=
    shiftToTargetExponent_eq (log2_of_isRounded hrounded) (by omega)
  have hmantissa : (quotient q (2 ^ carry q)).mantissa = carried q := by
    rcases hrounded.cases with rfl | hnormal
    · rfl
    · rw [carry_of_isNormal hnormal, carried_of_isNormal hnormal]
      exact Nat.div_one q
  simp only [roundWithAccuracy, shiftToTargetExponent_eq hlog he,
    roundedMantissa_quotient m (Nat.two_pow_pos k), hq, hsecond, hmantissa, hpos.ne', dite_false]

/-! ## Packing -/

theorem unpack_pack {m : ℕ} {e : ℤ} (s : Sign) (hm : IsNormal m) (hlow : -1074 ≤ e)
    (hhigh : e ≤ 971) (hpos : 0 < m) :
    (Float.Model.pack (.finite s m e hpos)).unpack = .finite s m e hpos := by
  obtain ⟨b, hb⟩ : ∃ b : ℕ, (b : ℤ) = e + 1075 := ⟨(e + 1075).toNat, by omega⟩
  have hpack : UnpackedFloat.pack binary64 (.finite s m e hpos) =
      packComponents binary64 s (BitVec.ofNat _ b) (BitVec.ofNat _ m) := by
    have hbiased : (e + (1023 : ℕ) + (52 : ℕ)).toNat = b := by omega
    have hbits : m.log2 + 1 = binary64.mantissaBits := by rw [log2_of_isNormal hm]; rfl
    simp only [UnpackedFloat.pack, hbits, show binary64.exponentBias = 1023 from rfl, hbiased,
      if_true]
    rw [if_neg (by omega)]
  have hfield : (BitVec.ofNat 11 b).toNat = b := Nat.mod_eq_of_lt (by omega)
  have hlowest : BitVec.ofNat 11 b ≠ 0#11 := fun h => by
    have hzero : b = 0 := hfield.symm.trans (congrArg BitVec.toNat h)
    omega
  have hhighest : BitVec.ofNat 11 b ≠ -1#11 := fun h => by
    have hones : b = 2047 := hfield.symm.trans (congrArg BitVec.toNat h)
    omega
  have hfraction : (1#1 ++ BitVec.ofNat 52 m).toNat = m := by
    rw [BitVec.toNat_append, ← Nat.shiftLeft_add_eq_or_of_lt (BitVec.isLt _), Nat.shiftLeft_eq,
      BitVec.toNat_ofNat, BitVec.toNat_ofNat]
    obtain ⟨hlow, hhigh⟩ := hm
    omega
  show UnpackedFloat.unpack binary64 (UnpackedFloat.pack binary64 (.finite s m e hpos)) = _
  rw [hpack]
  simp only [UnpackedFloat.unpack, unpackMantissa_packComponents, unpackExponent_packComponents,
    unpackSign_packComponents, Sign.ofBitVec_toBitVec, hlowest, hhighest, hfield, hfraction, if_false]
  congr 1
  show (b : ℤ) - ((1023 : ℕ) + (52 : ℕ)) = e
  omega

/-- A float is what it was rounded to. -/
theorem unpack_pack_roundWithAccuracy {m k q : ℕ} {e : ℤ} (s : Sign) (hlog : m.log2 = 52 + k)
    (hlow : -1074 ≤ e + k) (hhigh : e + k < 971) (hq : roundHalfEven m (2 ^ k) = q)
    (hrounded : IsRounded q) :
    ∃ hpos, (Float.Model.pack (roundWithAccuracy binary64 s m e .exact)).unpack =
      .finite s (carried q) (e + k + carry q) hpos := by
  have hnormal := isNormal_carried hrounded
  have hcarry := carry_le_one q
  rw [roundWithAccuracy_eq s hlog hlow hq hrounded hnormal.pos]
  exact ⟨hnormal.pos, unpack_pack s hnormal (by omega) (by omega) hnormal.pos⟩

end Rounding

end DynLisp
