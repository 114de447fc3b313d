import DynLisp.Proofs.Number.FloatEquality

/-!
# The fields of a float

A float is taken apart in two ways: into the fields of its bits (`Binary64.ofFloat`), where zero is
one more significand, and by the unpacking that arithmetic is defined with. Both find the same
number (`number?_eq`).
-/

namespace DynLisp

namespace FloatEquality

open Float.Model Float.Model.UnpackedFloat Float.Model.Format

/-! ## Bits -/

theorem toNat_unpackMantissa (b : BitVec binary64.numBits) :
    (unpackMantissa b).toNat = b.toNat % Binary64.hiddenBit := by
  simp [unpackMantissa]
  rfl

theorem toNat_unpackExponent (b : BitVec binary64.numBits) :
    (unpackExponent b).toNat = b.toNat / Binary64.hiddenBit % 2048 := by
  simp [unpackExponent, BitVec.extractLsb_toNat, Nat.shiftRight_eq_div_pow]
  rfl

theorem toNat_unpackSign (b : BitVec binary64.numBits) :
    (unpackSign b).toNat = b.toNat / Binary64.signBit % 2 := by
  simp [unpackSign, BitVec.extractLsb_toNat, Nat.shiftRight_eq_div_pow]
  rfl

theorem ofBitVec_unpackSign (b : BitVec binary64.numBits) :
    Sign.ofBitVec (unpackSign b) =
      if Binary64.signBit ≤ b.toNat then .negative else .positive := by
  have hlt : b.toNat < 2 * Binary64.signBit := b.isLt
  have hsign := toNat_unpackSign b
  have hbit : unpackSign b = 0#1 ↔ ¬ Binary64.signBit ≤ b.toNat := by
    rw [← BitVec.toNat_inj, hsign, BitVec.toNat_ofNat]
    unfold Binary64.signBit at *
    omega
  unfold Sign.ofBitVec
  by_cases h : Binary64.signBit ≤ b.toNat
  · rw [if_pos h, if_neg (by rw [hbit]; exact not_not.2 h)]
  · rw [if_neg h, if_pos (hbit.2 h)]

theorem unpackMantissa_eq_zero_iff (b : BitVec binary64.numBits) :
    unpackMantissa b = 0#_ ↔ b.toNat % Binary64.hiddenBit = 0 := by
  rw [← BitVec.toNat_inj, toNat_unpackMantissa]
  rfl

theorem unpackExponent_eq_zero_iff (b : BitVec binary64.numBits) :
    unpackExponent b = 0#_ ↔ b.toNat / Binary64.hiddenBit % 2048 = 0 := by
  rw [← BitVec.toNat_inj, toNat_unpackExponent]
  rfl

theorem unpackExponent_eq_highest_iff (b : BitVec binary64.numBits) :
    unpackExponent b = -1#_ ↔ b.toNat / Binary64.hiddenBit % 2048 = 2047 := by
  rw [← BitVec.toNat_inj, toNat_unpackExponent]
  rfl

/-- A significand with its hidden bit. -/
theorem toNat_hidden_unpackMantissa (b : BitVec binary64.numBits) :
    (1#1 ++ unpackMantissa b).toNat = b.toNat % Binary64.hiddenBit + Binary64.hiddenBit := by
  rw [BitVec.toNat_append, ← Nat.shiftLeft_add_eq_or_of_lt (BitVec.isLt _), toNat_unpackMantissa,
    Nat.add_comm]
  rfl

/-! ## Numbers from fields -/

/-- The number of a float that was taken apart into its fields. -/
def fieldsNumber? : Binary64 → Option Extended
  | .nan => none
  | .infinite negative => some (.infinite (if negative then .negative else .positive))
  | .finite negative m q => some (.rational (if negative then -scaled m q else scaled m q))

section Fields

variable (negative : Prop) [Decidable negative]

theorem unpackedNumber?_infinity :
    unpackedNumber? (.infinity (if negative then .negative else .positive)) =
      fieldsNumber? (.infinite (decide negative)) := by
  simp [unpackedNumber?, fieldsNumber?]

/-- Zero is the significand zero, with either sign. -/
theorem unpackedNumber?_zero (s : Sign) (q : ℤ) :
    unpackedNumber? (.zero s) = fieldsNumber? (.finite (decide negative) 0 q) := by
  simp [unpackedNumber?, fieldsNumber?, scaled]

theorem unpackedNumber?_finite (m : ℕ) (q : ℤ) (hpos : 0 < m) :
    unpackedNumber? (.finite (if negative then .negative else .positive) m q hpos) =
      fieldsNumber? (.finite (decide negative) m q) := by
  by_cases h : negative <;> simp [h, unpackedNumber?, fieldsNumber?]

end Fields

/-- Both ways of taking a float apart find the same number. -/
theorem number?_eq (x : Float) : number? x = fieldsNumber? (Binary64.ofFloat x) := by
  let b : BitVec binary64.numBits := x.toBits.toBitVec
  have hbits : x.toBits.toNat = b.toNat := rfl
  show unpackedNumber? (UnpackedFloat.unpack binary64 b) = _
  have hzero := unpackMantissa_eq_zero_iff b
  have hlowest := unpackExponent_eq_zero_iff b
  have hhighest := unpackExponent_eq_highest_iff b
  have hhidden := toNat_hidden_unpackMantissa b
  simp only [UnpackedFloat.unpack, Binary64.ofFloat, hbits, hzero, hlowest, hhighest, hhidden,
    ofBitVec_unpackSign, toNat_unpackExponent]
  split
  · split
    · exact unpackedNumber?_infinity (Binary64.signBit ≤ b.toNat)
    · rfl
  · split
    · rename_i hlowest
      split
      · rename_i hzero
        rw [hzero]
        exact unpackedNumber?_zero ..
      · have hexponent : ((b.toNat / Binary64.hiddenBit % 2048 : ℕ) : ℤ) -
            (binary64.exponentBias + binary64.mantissaBitsWithoutImplicit) + 1 = -1074 := by
          rw [hlowest]
          rfl
        rw [unpackedNumber?_finite, hexponent, toNat_unpackMantissa]
    · exact unpackedNumber?_finite (Binary64.signBit ≤ b.toNat) _ _ _

/-- A float that stands for a rational number has a sign, a significand and an exponent. -/
theorem exists_finite_of_number? {x : Float} {r : ℚ} (h : number? x = some (.rational r)) :
    ∃ negative m q, Binary64.ofFloat x = .finite negative m q ∧
      r = if negative then -scaled m q else scaled m q := by
  rw [number?_eq] at h
  cases hfields : Binary64.ofFloat x with
  | nan =>
    rw [hfields] at h
    cases h
  | infinite negative =>
    rw [hfields] at h
    cases h
  | finite negative m q =>
    rw [hfields] at h
    cases h
    exact ⟨negative, m, q, rfl, rfl⟩

end FloatEquality

end DynLisp
