import Mathlib
import DynLisp.Number.Decimal

/-!
# Numbers with few significant digits

Which decimal with `k` significant digits is nearest to a number, said of rational numbers
(`IsNearestDecimal`): a tie goes to the even last digit, and so there is only one
(`IsNearestDecimal.unique`). It is the one that a fraction is rounded to
(`Magnitude.isNearestDecimal_scientific`). Rounding once more, to the decimal places that this
leaves after the point, gives the same digits (`Magnitude.fixed_of_scientific`), also where the
first rounding led to a new power of ten.
-/

namespace DynLisp

/-! ## The nearest natural number -/

/-- The natural number nearest to a number, the even one if two are equally near. -/
structure IsNearestNat (y : ℚ) (r : ℕ) : Prop where
  nearest (n : ℕ) : |y - r| ≤ |y - n|
  even_of_tie (n : ℕ) : n ≠ r → |y - n| = |y - r| → Even r

theorem dist_roundHalfEven_le (num : ℕ) {den : ℕ} (hden : 0 < den) :
    |(num / den : ℚ) - roundHalfEven num den| ≤ 1 / 2 := by
  have hpos : (0 : ℚ) < den := Nat.cast_pos.2 hden
  have habove : (2 * (roundHalfEven num den * den) : ℚ) ≤ 2 * num + den := by
    exact_mod_cast two_mul_roundHalfEven_le num hden
  have hbelow : (2 * num : ℚ) ≤ 2 * (roundHalfEven num den * den) + den := by
    exact_mod_cast le_two_mul_roundHalfEven num hden
  rw [abs_le, div_sub' hpos.ne', le_div_iff₀ hpos, div_le_iff₀ hpos]
  constructor <;> linarith

/-- Half a unit away is only what lies in the middle. -/
theorem dist_roundHalfEven_lt {num den : ℕ} (hden : 0 < den) (h : 2 * (num % den) ≠ den) :
    |(num / den : ℚ) - roundHalfEven num den| < 1 / 2 := by
  have hpos : (0 : ℚ) < den := Nat.cast_pos.2 hden
  have hlt : ((num % den : ℕ) : ℚ) < den := Nat.cast_lt.2 (Nat.mod_lt num hden)
  have hnum : (num : ℚ) = den * (num / den : ℕ) + (num % den : ℕ) := by
    exact_mod_cast (Nat.div_add_mod num den).symm
  rw [abs_lt, div_sub' hpos.ne', lt_div_iff₀ hpos, div_lt_iff₀ hpos]
  unfold roundHalfEven
  dsimp only
  split
  · rename_i hless
    have hless' : (2 * (num % den : ℕ) : ℚ) < den := by exact_mod_cast hless
    have hrest : (0 : ℚ) ≤ (num % den : ℕ) := Nat.cast_nonneg _
    constructor <;> linarith
  · rw [if_pos (by omega)]
    have hmore : (den : ℚ) < 2 * (num % den : ℕ) := by
      exact_mod_cast (show den < 2 * (num % den) by omega)
    push_cast
    constructor <;> linarith

theorem isNearestNat_roundHalfEven (num : ℕ) {den : ℕ} (hden : 0 < den) :
    IsNearestNat (num / den) (roundHalfEven num den) := by
  -- Any other natural number is at least one unit away from the rounded one.
  have hother : ∀ n : ℕ, n ≠ roundHalfEven num den →
      1 ≤ |(num / den : ℚ) - n| + |(num / den : ℚ) - roundHalfEven num den| := by
    intro n hn
    have hunit : (1 : ℚ) ≤ |(n : ℚ) - roundHalfEven num den| := by
      have hne : (n : ℤ) - roundHalfEven num den ≠ 0 := sub_ne_zero.2 (by exact_mod_cast hn)
      exact_mod_cast Int.one_le_abs hne
    calc (1 : ℚ) ≤ |(n : ℚ) - roundHalfEven num den| := hunit
      _ ≤ |(n : ℚ) - num / den| + |(num / den : ℚ) - roundHalfEven num den| := abs_sub_le ..
      _ = _ := by rw [abs_sub_comm (n : ℚ)]
  constructor
  · intro n
    by_cases hn : n = roundHalfEven num den
    · rw [hn]
    · have hle := dist_roundHalfEven_le num hden
      have hsum := hother n hn
      linarith
  · intro n hn htie
    have hsum := hother n hn
    by_cases hmiddle : 2 * (num % den) = den
    · exact Nat.even_iff.2 (roundHalfEven_even_of_tie hmiddle)
    · have hlt := dist_roundHalfEven_lt hden hmiddle
      rw [htie] at hsum
      linarith

namespace IsNearestNat

variable {y : ℚ} {r n : ℕ}

theorem le_of_le (h : IsNearestNat y r) (hn : n ≤ y) : n ≤ r := by
  by_contra hlt
  have hlt' : (r : ℚ) < n := Nat.cast_lt.2 (Nat.lt_of_not_le hlt)
  have hdist := h.nearest n
  rw [abs_of_nonneg (by linarith), abs_of_nonneg (by linarith)] at hdist
  linarith

theorem le_of_ge (h : IsNearestNat y r) (hn : y ≤ n) : r ≤ n := by
  by_contra hlt
  have hlt' : (n : ℚ) < r := Nat.cast_lt.2 (Nat.lt_of_not_le hlt)
  have hdist := h.nearest n
  rw [abs_of_nonpos (by linarith), abs_of_nonpos (by linarith)] at hdist
  linarith

/-- A natural number less than half a unit away is the nearest one. -/
theorem eq_of_dist_lt (h : IsNearestNat y r) (hn : |y - n| < 1 / 2) : r = n := by
  have hdist : |(r : ℚ) - n| < 1 := by
    calc |(r : ℚ) - n| ≤ |(r : ℚ) - y| + |y - n| := abs_sub_le ..
      _ = |y - r| + |y - n| := by rw [abs_sub_comm (r : ℚ)]
      _ < 1 := by linarith [h.nearest n]
  have hzero : |(r : ℤ) - n| < 1 := by exact_mod_cast hdist
  rw [Int.abs_lt_one_iff] at hzero
  omega

end IsNearestNat

/-! ## Decimals -/

/-- The natural number has `k` decimal digits. -/
def HasDigits (k m : ℕ) : Prop :=
  10 ^ (k - 1) ≤ m ∧ m < 10 ^ k

/-- The number with the `k` digits of `m`, the first of which counts `10 ^ e`. -/
def decimalRat (k m : ℕ) (e : ℤ) : ℚ :=
  m * 10 ^ (e + 1 - k)

section Decimals

variable {k m m' : ℕ} {e e' : ℤ} {x : ℚ}

theorem ten_zpow_pos (e : ℤ) : (0 : ℚ) < 10 ^ e :=
  zpow_pos (by decide) e

/-- A power of ten, in units of the last of `k` digits. -/
theorem pow_mul_unit (k : ℕ) (n : ℕ) (e : ℤ) : ((10 ^ n : ℕ) : ℚ) * 10 ^ (e + 1 - k) =
    10 ^ (e + 1 - k + n) := by
  rw [Nat.cast_pow, ← zpow_natCast, zpow_add₀ (by decide) (e + 1 - k), mul_comm]
  rfl

theorem decimalRat_bounds (hk : 0 < k) (h : HasDigits k m) (e : ℤ) :
    (10 : ℚ) ^ e ≤ decimalRat k m e ∧ decimalRat k m e < 10 ^ (e + 1) := by
  have hunit := ten_zpow_pos (e + 1 - k)
  have hlow := pow_mul_unit k (k - 1) e
  have hhigh := pow_mul_unit k k e
  rw [show e + 1 - k + (k - 1 : ℕ) = e by omega] at hlow
  rw [show e + 1 - k + k = e + 1 by omega] at hhigh
  rw [← hlow, ← hhigh]
  exact ⟨mul_le_mul_of_nonneg_right (Nat.cast_le.2 h.1) hunit.le,
    mul_lt_mul_of_pos_right (Nat.cast_lt.2 h.2) hunit⟩

/-- With more digits before the point a decimal is not less. -/
theorem le_of_decimalRat_le (hk : 0 < k) (h : HasDigits k m) (h' : HasDigits k m')
    (hle : decimalRat k m e ≤ decimalRat k m' e') : e ≤ e' := by
  have hpow : (10 : ℚ) ^ e < 10 ^ (e' + 1) :=
    ((decimalRat_bounds hk h e).1.trans hle).trans_lt (decimalRat_bounds hk h' e').2
  rw [zpow_lt_zpow_iff_right₀ (by decide)] at hpow
  omega

/-- No two decimals are the same number. -/
theorem decimalRat_inj (hk : 0 < k) (h : HasDigits k m) (h' : HasDigits k m')
    (heq : decimalRat k m e = decimalRat k m' e') : (m, e) = (m', e') := by
  obtain rfl : e = e' :=
    (le_of_decimalRat_le hk h h' heq.le).antisymm (le_of_decimalRat_le hk h' h heq.ge)
  unfold decimalRat at heq
  rw [mul_left_inj' (ten_zpow_pos _).ne', Nat.cast_inj] at heq
  rw [heq]

/-- A larger decimal is a multiple of the last digit of a smaller one. -/
theorem exists_multiple (k m' : ℕ) (h : e ≤ e') :
    ∃ n : ℕ, decimalRat k m' e' = n * 10 ^ (e + 1 - k) := by
  obtain ⟨j, rfl⟩ := Int.le.dest h
  refine ⟨m' * 10 ^ j, ?_⟩
  rw [Nat.cast_mul, mul_assoc, pow_mul_unit, decimalRat]
  congr 2
  ring

/-- The decimal with `k` significant digits nearest to a number, the one with an even last digit if
two are equally near. -/
structure IsNearestDecimal (k : ℕ) (x : ℚ) (m : ℕ) (e : ℤ) : Prop where
  hasDigits : HasDigits k m
  nearest (m' : ℕ) (e' : ℤ) : HasDigits k m' →
    |x - decimalRat k m e| ≤ |x - decimalRat k m' e'|
  even_of_tie (m' : ℕ) (e' : ℤ) : HasDigits k m' → (m', e') ≠ (m, e) →
    |x - decimalRat k m' e'| = |x - decimalRat k m e| → Even m

/-- Between two decimals with even last digits there is another one. -/
theorem exists_between (hk : 0 < k) (h : HasDigits k m) (h' : HasDigits k m') (hm : Even m)
    (hm' : Even m') (hlt : decimalRat k m e < decimalRat k m' e') :
    ∃ n, HasDigits k n ∧ decimalRat k m e < decimalRat k n e ∧
      decimalRat k n e < decimalRat k m' e' := by
  have hunit := ten_zpow_pos (e + 1 - k)
  have hten : Even (10 ^ k) := (show Even 10 by decide).pow_of_ne_zero hk.ne'
  have hnext : HasDigits k (m + 1) := by
    obtain ⟨hlow, hhigh⟩ := h
    refine ⟨hlow.trans (Nat.le_succ m), Nat.lt_of_le_of_ne hhigh fun heq => ?_⟩
    exact Nat.not_even_iff_odd.2 hm.add_one (heq ▸ hten)
  obtain ⟨n, hn⟩ := exists_multiple k m' (le_of_decimalRat_le hk h h' hlt.le)
  have hmn : m < n := by
    rw [hn, decimalRat, mul_lt_mul_iff_left₀ hunit, Nat.cast_lt] at hlt
    exact hlt
  refine ⟨m + 1, hnext, ?_, lt_of_le_of_ne ?_ fun heq => ?_⟩
  · exact mul_lt_mul_of_pos_right (Nat.cast_lt.2 (Nat.lt_succ_self m)) hunit
  · rw [hn]
    exact mul_le_mul_of_nonneg_right (Nat.cast_le.2 hmn) hunit.le
  · cases decimalRat_inj hk hnext h' heq
    exact Nat.not_even_iff_odd.2 hm.add_one hm'

/-- What lies between two numbers is less far away than one of them. -/
theorem dist_lt_max_of_between {a b c : ℚ} (hab : a < b) (hbc : b < c) :
    |x - b| < max |x - a| |x - c| := by
  rcases le_total x b with hle | hle
  · refine lt_max_of_lt_right ?_
    rw [abs_sub_comm, abs_of_nonneg (by linarith), abs_sub_comm, abs_of_nonneg (by linarith)]
    linarith
  · refine lt_max_of_lt_left ?_
    rw [abs_of_nonneg (by linarith), abs_of_nonneg (by linarith)]
    linarith

namespace IsNearestDecimal

/-- Between two decimals that are equally near there would be a nearer one. -/
theorem not_lt (hk : 0 < k) (h : IsNearestDecimal k x m e) (h' : IsNearestDecimal k x m' e') :
    ¬ decimalRat k m e < decimalRat k m' e' := by
  intro hlt
  have htie : |x - decimalRat k m' e'| = |x - decimalRat k m e| :=
    (h'.nearest m e h.hasDigits).antisymm (h.nearest m' e' h'.hasDigits)
  have hne : (m', e') ≠ (m, e) := by
    rintro ⟨⟩
    exact lt_irrefl _ hlt
  have hm : Even m := h.even_of_tie m' e' h'.hasDigits hne htie
  have hm' : Even m' := h'.even_of_tie m e h.hasDigits hne.symm htie.symm
  obtain ⟨n, hn, hbelow, habove⟩ := exists_between hk h.hasDigits h'.hasDigits hm hm' hlt
  have hnearer := dist_lt_max_of_between (x := x) hbelow habove
  rw [htie, max_self] at hnearer
  exact absurd (h.nearest n e hn) (not_le.2 hnearer)

/-- Only one decimal is the nearest one. -/
theorem unique (hk : 0 < k) (h : IsNearestDecimal k x m e) (h' : IsNearestDecimal k x m' e') :
    (m, e) = (m', e') :=
  decimalRat_inj hk h.hasDigits h'.hasDigits
    (le_antisymm (le_of_not_gt (not_lt hk h' h)) (le_of_not_gt (not_lt hk h h')))

end IsNearestDecimal

end Decimals

/-! ## Fractions -/

namespace Magnitude

/-- The rational number that a fraction is. -/
def toRat (x : Magnitude) : ℚ :=
  x.num / x.den

/-- A power with an exponent of either sign, as a fraction of powers. -/
theorem pow_toNat_div {b : ℚ} (hb : b ≠ 0) (e : ℤ) : b ^ e.toNat / b ^ (-e).toNat = b ^ e := by
  rw [← zpow_natCast, ← zpow_natCast, ← zpow_sub₀ hb]
  congr 1
  omega

theorem toRat_ofBinary (m : ℕ) (q : ℤ) : (ofBinary m q).toRat = m * 2 ^ q := by
  rw [← pow_toNat_div two_ne_zero, ← mul_div_assoc]
  simp [toRat, ofBinary]

theorem toRat_scale (x : Magnitude) (e : ℤ) : (x.scale e).toRat = x.toRat * 10 ^ e := by
  rw [← pow_toNat_div (by decide)]
  simp [toRat, scale, div_mul_div_comm]

theorem isIntegral_iff (x : Magnitude) : x.isIntegral = true ↔ ∃ n : ℕ, x.toRat = n := by
  have hden : (x.den : ℚ) ≠ 0 := Nat.cast_ne_zero.2 x.den_pos.ne'
  simp only [isIntegral, toRat, div_eq_iff hden, beq_iff_eq, ← Nat.dvd_iff_mod_eq_zero, dvd_def]
  simp only [mul_comm x.den]
  exact exists_congr fun n => by exact_mod_cast Iff.rfl

end Magnitude

theorem digitCount_bounds {n : ℕ} (hn : 0 < n) :
    10 ^ (digitCount n - 1) ≤ n ∧ n < 10 ^ digitCount n := by
  have hpos : 0 < digitCount n := Nat.length_toDigits_pos
  refine ⟨?_, (Nat.length_toDigits_le_iff (by decide) hpos).1 (Nat.le_refl _)⟩
  by_contra hlt
  rcases Nat.eq_zero_or_pos (digitCount n - 1) with hone | hmore
  · rw [hone] at hlt
    omega
  · have hshorter : digitCount n ≤ digitCount n - 1 :=
      (Nat.length_toDigits_le_iff (by decide) hmore).2 (Nat.lt_of_not_le hlt)
    omega

namespace Magnitude

/-- The decimal exponent of a number with digits before the point. -/
theorem exponent10_of_one_le {x : Magnitude} (h : x.den ≤ x.num) :
    (10 : ℚ) ^ x.exponent10 ≤ x.toRat ∧ x.toRat < 10 ^ (x.exponent10 + 1) := by
  have hden : (0 : ℚ) < x.den := Nat.cast_pos.2 x.den_pos
  have hpos : 0 < digitCount (x.num / x.den) := Nat.length_toDigits_pos
  obtain ⟨hlow, hhigh⟩ := digitCount_bounds (Nat.div_pos h x.den_pos)
  rw [Nat.le_div_iff_mul_le x.den_pos] at hlow
  rw [Nat.div_lt_iff_lt_mul x.den_pos] at hhigh
  have hexponent : x.exponent10 = (digitCount (x.num / x.den) - 1 : ℕ) := by
    rw [exponent10, if_pos h]
    omega
  have hnext : x.exponent10 + 1 = (digitCount (x.num / x.den) : ℕ) := by omega
  rw [hnext, hexponent, zpow_natCast, zpow_natCast, toRat, le_div_iff₀ hden, div_lt_iff₀ hden]
  exact ⟨by exact_mod_cast hlow, by exact_mod_cast hhigh⟩

theorem zpow_neg_le_toRat_iff (x : Magnitude) (j : ℕ) :
    (10 : ℚ) ^ (-j : ℤ) ≤ x.toRat ↔ x.den ≤ x.num * 10 ^ j := by
  have hden : (0 : ℚ) < x.den := Nat.cast_pos.2 x.den_pos
  rw [zpow_neg, zpow_natCast, inv_le_iff_one_le_mul₀ (pow_pos (by decide) j), toRat,
    div_mul_eq_mul_div, le_div_iff₀ hden, one_mul]
  exact_mod_cast Iff.rfl

theorem toRat_le_zpow_neg_iff (x : Magnitude) (j : ℕ) :
    x.toRat ≤ (10 : ℚ) ^ (-j : ℤ) ↔ x.num * 10 ^ j ≤ x.den := by
  have hden : (0 : ℚ) < x.den := Nat.cast_pos.2 x.den_pos
  rw [zpow_neg, zpow_natCast, inv_eq_one_div, le_div_iff₀ (pow_pos (by decide) j), toRat,
    div_mul_eq_mul_div, div_le_iff₀ hden, one_mul]
  exact_mod_cast Iff.rfl

/-- The decimal exponent of a number with zeros behind the point. -/
theorem exponent10_of_lt_one {x : Magnitude} (h : x.num < x.den) (hnum : 0 < x.num) :
    (10 : ℚ) ^ x.exponent10 ≤ x.toRat ∧ x.toRat < 10 ^ (x.exponent10 + 1) := by
  obtain ⟨hlow, hhigh⟩ := digitCount_bounds (Nat.div_pos h.le hnum)
  rw [Nat.le_div_iff_mul_le hnum, Nat.mul_comm] at hlow
  rw [Nat.div_lt_iff_lt_mul hnum, Nat.mul_comm] at hhigh
  have hpos : 0 < digitCount (x.den / x.num) := Nat.length_toDigits_pos
  unfold exponent10
  rw [if_neg (Nat.not_le.2 h)]
  dsimp only
  generalize digitCount (x.den / x.num) = k at hlow hhigh hpos
  rw [show (k : ℤ) - 1 = (k - 1 : ℕ) by omega]
  split
  · -- The number is a power of ten.
    rename_i hexact
    refine ⟨(x.zpow_neg_le_toRat_iff (k - 1)).2 hexact, ?_⟩
    exact ((x.toRat_le_zpow_neg_iff (k - 1)).2 hlow).trans_lt
      (zpow_lt_zpow_right₀ (by decide) (Int.lt_succ _))
  · rename_i hless
    refine ⟨(x.zpow_neg_le_toRat_iff k).2 hhigh.le, ?_⟩
    rw [show -(k : ℤ) + 1 = -(k - 1 : ℕ) by omega]
    exact lt_of_not_ge (mt (x.zpow_neg_le_toRat_iff (k - 1)).1 hless)

theorem exponent10_bounds {x : Magnitude} (hx : 0 < x.num) :
    (10 : ℚ) ^ x.exponent10 ≤ x.toRat ∧ x.toRat < 10 ^ (x.exponent10 + 1) := by
  rcases Nat.lt_or_ge x.num x.den with hless | hge
  · exact exponent10_of_lt_one hless hx
  · exact exponent10_of_one_le hge

/-! ## Rounding a fraction -/

variable (x : Magnitude) (k : ℕ)

/-- The fraction in units of the last of `k` digits. -/
def inUnits : Magnitude :=
  x.scale ((k : ℤ) - 1 - x.exponent10)

/-- The digits that a fraction is rounded to, of which there may be one too many. -/
def roundedDigits : ℕ :=
  roundHalfEven (x.inUnits k).num (x.inUnits k).den

theorem scientific_eq : x.scientific k =
    if x.roundedDigits k = 10 ^ k then (10 ^ (k - 1), x.exponent10 + 1)
    else (x.roundedDigits k, x.exponent10) :=
  rfl

theorem isNearestNat_roundedDigits : IsNearestNat (x.inUnits k).toRat (x.roundedDigits k) :=
  isNearestNat_roundHalfEven _ (x.inUnits k).den_pos

theorem isNearestNat_fixed (places : ℕ) :
    IsNearestNat (x.toRat * 10 ^ places) (x.fixed places) := by
  have h := isNearestNat_roundHalfEven (x.num * 10 ^ places) x.den_pos
  rw [Nat.cast_mul, Nat.cast_pow, mul_div_right_comm] at h
  exact h

theorem toRat_inUnits :
    x.toRat = (x.inUnits k).toRat * 10 ^ (x.exponent10 + 1 - k) := by
  have hcancel : (k : ℤ) - 1 - x.exponent10 + (x.exponent10 + 1 - k) = 0 := by ring
  rw [inUnits, toRat_scale, mul_assoc, ← zpow_add₀ (by decide), hcancel, zpow_zero, mul_one]

variable {x k}

theorem toRat_inUnits_bounds (hx : 0 < x.num) (hk : 0 < k) :
    ((10 ^ (k - 1) : ℕ) : ℚ) ≤ (x.inUnits k).toRat ∧
      (x.inUnits k).toRat < (10 ^ k : ℕ) := by
  have hunit := ten_zpow_pos (x.exponent10 + 1 - k)
  obtain ⟨hlow, hhigh⟩ := exponent10_bounds hx
  rw [toRat_inUnits x k] at hlow hhigh
  rw [← mul_le_mul_iff_left₀ hunit, ← mul_lt_mul_iff_left₀ hunit, pow_mul_unit, pow_mul_unit]
  rw [show x.exponent10 + 1 - k + (k - 1 : ℕ) = x.exponent10 by omega,
    show x.exponent10 + 1 - k + k = x.exponent10 + 1 by omega]
  exact ⟨hlow, hhigh⟩

theorem roundedDigits_bounds (hx : 0 < x.num) (hk : 0 < k) :
    10 ^ (k - 1) ≤ x.roundedDigits k ∧ x.roundedDigits k ≤ 10 ^ k := by
  obtain ⟨hlow, hhigh⟩ := toRat_inUnits_bounds hx hk
  have hnearest := isNearestNat_roundedDigits x k
  exact ⟨hnearest.le_of_le hlow, hnearest.le_of_ge hhigh.le⟩

theorem hasDigits_scientific (hx : 0 < x.num) (hk : 0 < k) : HasDigits k (x.scientific k).1 := by
  obtain ⟨hlow, hhigh⟩ := roundedDigits_bounds hx hk
  rw [scientific_eq]
  split
  · exact ⟨Nat.le_refl _, Nat.pow_lt_pow_right (by decide) (by omega)⟩
  · exact ⟨hlow, by omega⟩

/-- A carry does not change the number. -/
theorem decimalRat_scientific (hk : 0 < k) :
    decimalRat k (x.scientific k).1 (x.scientific k).2 =
      x.roundedDigits k * 10 ^ (x.exponent10 + 1 - k) := by
  rw [scientific_eq]
  split
  · rename_i hcarry
    rw [hcarry, decimalRat, pow_mul_unit, pow_mul_unit]
    congr 1
    omega
  · rfl

theorem dist_multiple (x : Magnitude) (k n : ℕ) :
    |x.toRat - n * 10 ^ (x.exponent10 + 1 - k)| =
      |(x.inUnits k).toRat - n| * 10 ^ (x.exponent10 + 1 - k) := by
  rw [toRat_inUnits x k, ← sub_mul, abs_mul, abs_of_pos (ten_zpow_pos _)]

/-- A decimal with fewer digits before the point is farther away: it is below the power of ten that
the fraction has reached. -/
theorem dist_scientific_lt (hx : 0 < x.num) (hk : 0 < k) {m : ℕ} {e : ℤ} (hm : HasDigits k m)
    (he : e < x.exponent10) :
    |x.toRat - decimalRat k (x.scientific k).1 (x.scientific k).2| <
      |x.toRat - decimalRat k m e| := by
  have hunit := ten_zpow_pos (x.exponent10 + 1 - k)
  have hlow := (toRat_inUnits_bounds hx hk).1
  have hreached : ((10 ^ (k - 1) : ℕ) : ℚ) * 10 ^ (x.exponent10 + 1 - k) ≤ x.toRat := by
    rw [toRat_inUnits x k]
    exact mul_le_mul_of_nonneg_right hlow hunit.le
  have hbelow : decimalRat k m e < (10 ^ (k - 1) : ℕ) * 10 ^ (x.exponent10 + 1 - k) := by
    rw [pow_mul_unit, show x.exponent10 + 1 - k + (k - 1 : ℕ) = x.exponent10 by omega]
    exact (decimalRat_bounds hk hm e).2.trans_le (zpow_le_zpow_right₀ (by decide) he)
  calc |x.toRat - decimalRat k (x.scientific k).1 (x.scientific k).2|
      = |(x.inUnits k).toRat - x.roundedDigits k| * 10 ^ (x.exponent10 + 1 - k) := by
        rw [decimalRat_scientific hk, dist_multiple]
    _ ≤ |(x.inUnits k).toRat - (10 ^ (k - 1) : ℕ)| * 10 ^ (x.exponent10 + 1 - k) :=
        mul_le_mul_of_nonneg_right ((isNearestNat_roundedDigits x k).nearest _) hunit.le
    _ = x.toRat - (10 ^ (k - 1) : ℕ) * 10 ^ (x.exponent10 + 1 - k) := by
        rw [← dist_multiple, abs_of_nonneg (by linarith)]
    _ < x.toRat - decimalRat k m e := by linarith
    _ ≤ |x.toRat - decimalRat k m e| := le_abs_self _

/-- Rounding a fraction to significant digits gives the nearest decimal. -/
theorem isNearestDecimal_scientific (hx : 0 < x.num) (hk : 2 ≤ k) :
    IsNearestDecimal k x.toRat (x.scientific k).1 (x.scientific k).2 := by
  have hpos : 0 < k := by omega
  have hunit := ten_zpow_pos (x.exponent10 + 1 - k)
  have hrounded := isNearestNat_roundedDigits x k
  have hdigits := hasDigits_scientific hx hpos
  refine ⟨hdigits, fun m e hm => ?_, fun m e hm hne htie => ?_⟩
  · rcases lt_or_ge e x.exponent10 with hlt | hge
    · exact (dist_scientific_lt hx hpos hm hlt).le
    · obtain ⟨n, hn⟩ := exists_multiple k m hge
      rw [decimalRat_scientific hpos, hn, dist_multiple, dist_multiple]
      exact mul_le_mul_of_nonneg_right (hrounded.nearest n) hunit.le
  · have hge : x.exponent10 ≤ e :=
      le_of_not_gt fun hlt => (dist_scientific_lt hx hpos hm hlt).ne' htie
    obtain ⟨n, hn⟩ := exists_multiple k m hge
    have hother : n ≠ x.roundedDigits k := by
      rintro rfl
      exact hne (decimalRat_inj hpos hm hdigits (hn.trans (decimalRat_scientific hpos).symm))
    rw [decimalRat_scientific hpos, hn, dist_multiple, dist_multiple,
      mul_left_inj' hunit.ne'] at htie
    have heven := hrounded.even_of_tie n hother htie
    rw [scientific_eq]
    split
    · exact (show Even 10 by decide).pow_of_ne_zero (by omega)
    · exact heven

/-- Rounded to the places that are left after the point, a fraction has the same digits. -/
theorem fixed_of_scientific (hk : 0 < k) {places : ℕ}
    (hplaces : (places : ℤ) = k - 1 - (x.scientific k).2) :
    x.fixed places = (x.scientific k).1 := by
  rw [scientific_eq] at hplaces ⊢
  split at hplaces
  · rename_i hcarry
    rw [if_pos hcarry]
    have hdist : |(x.inUnits k).toRat - x.roundedDigits k| ≤ 1 / 2 :=
      dist_roundHalfEven_le _ (x.inUnits k).den_pos
    have hpow : ((10 ^ k : ℕ) : ℚ) = 10 * (10 ^ (k - 1) : ℕ) := by
      exact_mod_cast (mul_pow_sub_one hk.ne' 10).symm
    -- After a carry there is one place fewer.
    have htenth : x.toRat * 10 ^ places = (x.inUnits k).toRat / 10 := by
      have hexponent : (k : ℤ) - 1 - x.exponent10 = places + 1 := by omega
      rw [inUnits, toRat_scale, hexponent, zpow_add_one₀ (by decide), zpow_natCast, ← mul_assoc,
        mul_div_cancel_right₀ _ (by decide)]
    rw [hcarry, hpow] at hdist
    refine (isNearestNat_fixed x places).eq_of_dist_lt ?_
    calc |x.toRat * 10 ^ places - (10 ^ (k - 1) : ℕ)|
        = |(x.inUnits k).toRat - 10 * (10 ^ (k - 1) : ℕ)| / 10 := by
          rw [htenth, div_sub' (by decide), abs_div, abs_of_pos (by decide : (0 : ℚ) < 10)]
      _ ≤ 1 / 2 / 10 := by linarith
      _ < 1 / 2 := by norm_num
  · rename_i hcarry
    rw [if_neg hcarry]
    unfold fixed roundedDigits inUnits
    dsimp only at hplaces ⊢
    rw [← hplaces]
    simp [scale]

end Magnitude

end DynLisp
