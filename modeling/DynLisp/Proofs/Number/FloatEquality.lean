import DynLisp.Proofs.Number.Rounding

/-!
# Numbers that floats stand for

A float that is not NaN stands for a rational number or for an infinity (`number?`). Two floats are
equal exactly if they stand for the same one (`beq_iff_number`): zero is one number with either
sign, and any other number has only one significand and exponent (`scaled_inj`).
-/

namespace DynLisp

namespace FloatEquality

open Float.Model Float.Model.UnpackedFloat Float.Model.Format

/-! ## Significands and exponents -/

/-- A significand and an exponent as floats have them: with fewer than 53 bits only at the lowest
exponent. -/
structure IsStored (m : ℕ) (e : ℤ) : Prop where
  lt : m < 2 ^ 53
  lowest_le : -1074 ≤ e
  full : e = -1074 ∨ 2 ^ 52 ≤ m

theorem isStored_unpack {b : BitVec binary64.numBits} {s : Sign} {m : ℕ} {e : ℤ} {hpos : 0 < m}
    (h : UnpackedFloat.unpack binary64 b = .finite s m e hpos) : IsStored m e := by
  have hfraction : (unpackMantissa b).toNat < 2 ^ 52 := (unpackMantissa b).isLt
  have hbias : ((binary64.exponentBias : ℕ) : ℤ) = 1023 := rfl
  unfold UnpackedFloat.unpack at h
  dsimp only at h
  split at h
  · split at h <;> cases h
  · split at h
    · rename_i hfield
      split at h
      · cases h
      · cases h
        have hzero : (unpackExponent b).toNat = 0 := congrArg BitVec.toNat hfield
        refine ⟨hfraction.trans (by decide), ?_, .inl ?_⟩ <;> rw [hzero, hbias] <;> decide
    · rename_i hfield
      cases h
      have hhidden : (1#1 ++ unpackMantissa b).toNat = 2 ^ 52 + (unpackMantissa b).toNat := by
        rw [BitVec.toNat_append, ← Nat.shiftLeft_add_eq_or_of_lt (BitVec.isLt _)]
        rfl
      have hnonzero : (unpackExponent b).toNat ≠ 0 := fun hzero =>
        hfield (BitVec.eq_of_toNat_eq hzero)
      rw [hhidden, hbias]
      exact ⟨by omega, by omega, .inr (Nat.le_add_right _ _)⟩

/-- The number of a significand and an exponent. -/
def scaled (m : ℕ) (e : ℤ) : ℚ :=
  m * 2 ^ e

theorem scaled_pos {m : ℕ} (hpos : 0 < m) (e : ℤ) : 0 < scaled m e :=
  mul_pos (Nat.cast_pos.2 hpos) (zpow_pos (by decide) e)

theorem scaled_add (m : ℕ) (e : ℤ) (k : ℕ) : scaled m (e + k) = scaled (m * 2 ^ k) e := by
  unfold scaled
  rw [zpow_add₀ (by decide), zpow_natCast, Nat.cast_mul, Nat.cast_pow, mul_comm ((2 : ℚ) ^ e),
    ← mul_assoc]
  rfl

theorem scaled_left_inj {m m' : ℕ} {e : ℤ} : scaled m e = scaled m' e ↔ m = m' := by
  unfold scaled
  rw [mul_left_inj' (zpow_ne_zero e (by decide)), Nat.cast_inj]

theorem le_of_scaled_eq {m m' : ℕ} {e e' : ℤ} (h : IsStored m e) (h' : IsStored m' e')
    (heq : scaled m e = scaled m' e') : e' ≤ e := by
  by_contra hlt
  obtain ⟨k, rfl⟩ : ∃ k : ℕ, e' = e + (k + 1 : ℕ) := ⟨(e' - e - 1).toNat, by omega⟩
  -- The significand with the lower exponent is twice the other or more.
  have hdouble : m' * 2 ≤ m := by
    rw [scaled_add, scaled_left_inj, Nat.pow_succ, Nat.mul_comm (2 ^ k), ← Nat.mul_assoc] at heq
    rw [heq]
    exact Nat.le_mul_of_pos_right _ (Nat.two_pow_pos k)
  obtain ⟨hbits, hlowest, -⟩ := h
  have hfull := h'.full
  omega

/-- No two significands and exponents make the same number. -/
theorem scaled_inj {m m' : ℕ} {e e' : ℤ} (h : IsStored m e) (h' : IsStored m' e') :
    scaled m e = scaled m' e' ↔ e = e' ∧ m = m' := by
  constructor
  · intro heq
    obtain rfl : e = e' := Int.le_antisymm (le_of_scaled_eq h' h heq.symm) (le_of_scaled_eq h h' heq)
    exact ⟨rfl, scaled_left_inj.1 heq⟩
  · rintro ⟨rfl, rfl⟩
    rfl

/-! ## Numbers -/

/-- What a float may stand for. -/
inductive Extended where
  | rational (q : ℚ)
  | infinite (s : Sign)

/-- The number of a float that was taken apart. -/
def unpackedNumber? : UnpackedFloat → Option Extended
  | .notANumber => none
  | .infinity s => some (.infinite s)
  | .zero _ => some (.rational 0)
  | .finite .positive m e _ => some (.rational (scaled m e))
  | .finite .negative m e _ => some (.rational (-scaled m e))

/-- The number that a float stands for, if it is not NaN. -/
def number? (x : Float) : Option Extended :=
  unpackedNumber? x.toModel.unpack

theorem unpacked_beq_iff_number {x y : UnpackedFloat}
    (hx : ∀ s m e hpos, x = .finite s m e hpos → IsStored m e)
    (hy : ∀ s m e hpos, y = .finite s m e hpos → IsStored m e) :
    x.beq y = true ↔ ∃ r, unpackedNumber? x = some r ∧ unpackedNumber? y = some r := by
  have hsigns : compare Sign.negative Sign.positive = .lt := rfl
  have hsigns' : compare Sign.positive Sign.negative = .gt := rfl
  have hsame : ∀ s : Sign, compare s s = .eq := fun s => by cases s <;> rfl
  rcases x with (_ | _) | _ | _ | ⟨_ | _, m, e, hpos⟩ <;>
    rcases y with (_ | _) | _ | _ | ⟨_ | _, m', e', hpos'⟩ <;>
    simp [UnpackedFloat.beq, UnpackedFloat.compare, unpackedNumber?, hsigns, hsigns', hsame]
  case zero.finite.negative | zero.finite.positive => exact (scaled_pos hpos' e').ne'
  case finite.negative.zero => exact (scaled_pos hpos e).ne'
  case finite.positive.zero => exact (scaled_pos hpos e).ne
  case finite.negative.finite.negative | finite.positive.finite.positive =>
    rw [eq_comm (a := scaled m' e')]
    exact (scaled_inj (hx _ _ _ _ rfl) (hy _ _ _ _ rfl)).symm
  case finite.negative.finite.positive =>
    exact ((neg_neg_of_pos (scaled_pos hpos e)).trans (scaled_pos hpos' e')).ne'
  case finite.positive.finite.negative =>
    exact ((neg_neg_of_pos (scaled_pos hpos' e')).trans (scaled_pos hpos e)).ne

theorem beq_iff_number {x y : Float} :
    (x == y) = true ↔ ∃ r, number? x = some r ∧ number? y = some r :=
  unpacked_beq_iff_number (fun _ _ _ _ => isStored_unpack) (fun _ _ _ _ => isStored_unpack)

theorem number?_eq_none_iff {x : Float} : number? x = none ↔ x.isNaN = true := by
  show unpackedNumber? x.toModel.unpack = none ↔ x.toModel.unpack.isNaN = true
  rcases x.toModel.unpack with (_ | _) | _ | _ | ⟨_ | _, m, e, _⟩ <;>
    simp [unpackedNumber?, UnpackedFloat.isNaN]

end FloatEquality

end DynLisp
