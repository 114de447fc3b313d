import DynLisp.Proofs.Number.Rounding

/-!
# The order of floats, and integers among them

Every float but NaN has a `rank?`, and one float is less than another exactly if the ranks of both
compare so (`lt_iff_rank`). Making an integer a float rounds it to 53 bits (`rank?_ofInt`), which
does not turn the order of integers round (`intRank_mono`).
-/

namespace DynLisp

namespace FloatOrder

open Float.Model Float.Model.UnpackedFloat Float.Model.Format Rounding

/-! ## Ranks -/

/-- Where a float stands: below or above zero and how far, by its exponent before its significand.
NaN stands nowhere. -/
abbrev Rank := ℤ ×ₗ ℤ ×ₗ ℤ

def Rank.mk (sign exponent significand : ℤ) : Rank :=
  toLex (sign, toLex (exponent, significand))

theorem Rank.mk_lt_mk {s e m s' e' m' : ℤ} : Rank.mk s e m < Rank.mk s' e' m' ↔
    s < s' ∨ s = s' ∧ (e < e' ∨ e = e' ∧ m < m') := by
  simp only [Rank.mk, Prod.Lex.toLex_lt_toLex]

theorem Rank.mk_le_mk {s e m s' e' m' : ℤ} : Rank.mk s e m ≤ Rank.mk s' e' m' ↔
    s < s' ∨ s = s' ∧ (e < e' ∨ e = e' ∧ m ≤ m') := by
  simp only [Rank.mk, Prod.Lex.toLex_le_toLex]

def unpackedRank? : UnpackedFloat → Option Rank
  | .notANumber => none
  | .infinity .positive => some (.mk 2 0 0)
  | .infinity .negative => some (.mk (-2) 0 0)
  | .zero _ => some (.mk 0 0 0)
  | .finite .positive m e _ => some (.mk 1 e m)
  | .finite .negative m e _ => some (.mk (-1) (-e) (-m))

def rank? (x : Float) : Option Rank :=
  unpackedRank? x.toModel.unpack

theorem unpacked_lt_iff_rank {x y : UnpackedFloat} : x.lt y = true ↔
    ∃ r s, unpackedRank? x = some r ∧ unpackedRank? y = some s ∧ r < s := by
  have hsigns : compare Sign.negative Sign.positive = .lt := rfl
  have hlt : ∀ (e e' : ℤ) (m m' : ℕ), (compare e e').then (compare m m') = .lt ↔
      e < e' ∨ e = e' ∧ m < m' := fun e e' m m' => by
    rw [Ordering.then_eq_lt, compare_lt_iff_lt, compare_eq_iff_eq, compare_lt_iff_lt]
  have hgt : ∀ (e e' : ℤ) (m m' : ℕ), (compare e e').then (compare m m') = .gt ↔
      e' < e ∨ e = e' ∧ m' < m := fun e e' m m' => by
    rw [Ordering.then_eq_gt, compare_gt_iff_gt, compare_eq_iff_eq, compare_gt_iff_gt]
  rcases x with (_ | _) | _ | _ | ⟨_ | _, m, e, _⟩ <;>
    rcases y with (_ | _) | _ | _ | ⟨_ | _, m', e', _⟩ <;>
    simp [UnpackedFloat.lt, UnpackedFloat.compare, unpackedRank?, Rank.mk_lt_mk, hsigns, hlt, hgt]

theorem lt_iff_rank {x y : Float} :
    x < y ↔ ∃ r s, rank? x = some r ∧ rank? y = some s ∧ r < s := by
  have hlt : x < y ↔ x.toModel.unpack.lt y.toModel.unpack = true := decide_eq_true_iff
  exact hlt.trans unpacked_lt_iff_rank

/-! ## Integers made floats -/

/-- A positive integer with 53 bits, before a carry. -/
def significand (n : ℕ) : ℕ :=
  roundHalfEven (n * 2 ^ 53) (2 ^ (n.log2 + 1))

theorem isRounded_significand {n : ℕ} (hn : 0 < n) : IsRounded (significand n) := by
  have hpow : (2 : ℕ) ^ (n.log2 + 1) = 2 ^ n.log2 * 2 := Nat.pow_succ ..
  have hlow : 2 ^ 52 ≤ n * 2 ^ 53 / 2 ^ (n.log2 + 1) := by
    have hlog : 2 ^ n.log2 ≤ n := Nat.log2_self_le hn.ne'
    rw [Nat.le_div_iff_mul_le (Nat.two_pow_pos _)]
    omega
  have hhigh : n * 2 ^ 53 / 2 ^ (n.log2 + 1) < 2 ^ 53 := by
    have hlog : n < 2 ^ (n.log2 + 1) := Nat.lt_log2_self
    rw [Nat.div_lt_iff_lt_mul (Nat.two_pow_pos _)]
    omega
  exact ⟨hlow.trans (div_le_roundHalfEven _ _), (roundHalfEven_le _ _).trans hhigh⟩

/-- The significand of a positive integer that was made a float. -/
def roundedSignificand (n : ℕ) : ℕ :=
  carried (significand n)

/-- The exponent of a positive integer that was made a float. -/
def roundedExponent (n : ℕ) : ℤ :=
  n.log2 - 52 + carry (significand n)

theorem carry_mono {q q' : ℕ} {e e' : ℤ} (hq : IsRounded q) (hq' : IsRounded q')
    (h : e < e' ∨ e = e' ∧ q ≤ q') : e + carry q < e' + carry q' ∨
      e + carry q = e' + carry q' ∧ carried q ≤ carried q' := by
  obtain ⟨hlow, hhigh⟩ := hq
  obtain ⟨hlow', hhigh'⟩ := hq'
  unfold carry carried
  split <;> split <;> omega

theorem rounded_mono {n n' : ℕ} (hn : 0 < n) (h : n ≤ n') :
    roundedExponent n < roundedExponent n' ∨
      roundedExponent n = roundedExponent n' ∧ roundedSignificand n ≤ roundedSignificand n' := by
  have hlog : n.log2 ≤ n'.log2 :=
    (Nat.le_log2 (hn.trans_le h).ne').2 ((Nat.log2_self_le hn.ne').trans h)
  unfold roundedExponent roundedSignificand
  refine carry_mono (isRounded_significand hn) (isRounded_significand (hn.trans_le h)) ?_
  rcases hlog.eq_or_lt with heq | hlt
  · refine .inr ⟨by rw [heq], ?_⟩
    unfold significand
    rw [heq]
    exact roundHalfEven_mono (Nat.mul_le_mul_right _ h) _
  · exact .inl (by omega)

/-- Where an integer stands when it is made a float. -/
def intRank (n : ℤ) : Rank :=
  .mk n.sign (n.sign * roundedExponent n.natAbs) (n.sign * roundedSignificand n.natAbs)

theorem intRank_natCast {n : ℕ} (hn : 0 < n) :
    intRank n = .mk 1 (roundedExponent n) (roundedSignificand n) := by
  simp only [intRank, Int.sign_eq_one_of_pos (Int.natCast_pos.2 hn), Int.natAbs_natCast,
    Int.one_mul]

theorem intRank_neg_natCast {n : ℕ} (hn : 0 < n) :
    intRank (-n) = .mk (-1) (-roundedExponent n) (-roundedSignificand n) := by
  simp only [intRank, Int.sign_neg, Int.sign_eq_one_of_pos (Int.natCast_pos.2 hn), Int.natAbs_neg,
    Int.natAbs_natCast, Int.neg_mul, Int.one_mul]

theorem intRank_mono {n n' : ℤ} (h : n ≤ n') : intRank n ≤ intRank n' := by
  refine Rank.mk_le_mk.2 ?_
  rcases Int.lt_trichotomy n 0 with hn | rfl | hn
  · rcases Int.lt_trichotomy n' 0 with hn' | rfl | hn'
    · have hrounded := @rounded_mono n'.natAbs n.natAbs (by omega) (by omega)
      rw [Int.sign_eq_neg_one_of_neg hn, Int.sign_eq_neg_one_of_neg hn']
      omega
    · rw [Int.sign_eq_neg_one_of_neg hn, Int.sign_zero]
      omega
    · rw [Int.sign_eq_neg_one_of_neg hn, Int.sign_eq_one_of_pos hn']
      omega
  · rcases h.eq_or_lt with rfl | hn'
    · exact .inr ⟨rfl, .inr ⟨rfl, Int.le_refl _⟩⟩
    · rw [Int.sign_zero, Int.sign_eq_one_of_pos hn']
      omega
  · have hrounded := @rounded_mono n.natAbs n'.natAbs (by omega) (by omega)
    rw [Int.sign_eq_one_of_pos hn, Int.sign_eq_one_of_pos (hn.trans_le h)]
    omega

theorem log2_mul_two_pow {n : ℕ} (hn : 0 < n) (k : ℕ) : (n * 2 ^ k).log2 = n.log2 + k := by
  induction k with
  | zero => rw [Nat.pow_zero, Nat.mul_one, Nat.add_zero]
  | succ k ih =>
    have hne : n * 2 ^ k ≠ 0 := (Nat.mul_pos hn (Nat.two_pow_pos k)).ne'
    rw [Nat.pow_succ, ← Nat.mul_assoc, Nat.mul_comm _ 2, Nat.log2_two_mul hne, ih, Nat.add_assoc]

/-! ### Large integers

From `2 ^ 53` on an integer is rounded at once. -/

theorem unpack_ofNat_large {n : ℕ} (hlarge : 2 ^ 53 ≤ n) (hfits : n < 2 ^ 64) :
    ∃ hpos, (Float.ofNat n).toModel.unpack =
      .finite .positive (roundedSignificand n) (roundedExponent n) hpos := by
  have hn : 0 < n := by omega
  have hfloat : Float.ofNat n = .ofModel (.ofScientific n 0) := by
    show Float.ofScientific n false 0 = _
    unfold Float.ofScientific
    rw [dif_neg (by omega)]
    rfl
  have hmodel : Float.Model.ofScientific n 0 =
      Float.Model.pack (roundWithAccuracy binary64 .positive (n * 2 ^ 53) (-53) .exact) := by
    have hrange : (0 : ℤ) < 2 ^ binary64.exponentBits := by decide
    unfold Float.Model.ofScientific UnpackedFloat.ofScientific
    rw [dif_neg hn.ne', if_neg (by decide), if_neg (by omega), if_pos (Int.le_refl 0)]
    have hshift : n <<< binary64.mantissaBits * 10 ^ (0 : ℤ).toNat = n * 2 ^ 53 := by
      rw [Nat.shiftLeft_eq]
      exact Nat.mul_one _
    simp only [UnpackedFloat.mul, hshift]
    rfl
  have hlog : (n * 2 ^ 53).log2 = 52 + (n.log2 + 1) := by
    rw [log2_mul_two_pow hn]
    omega
  have hbits : n.log2 < 64 := (Nat.log2_lt hn.ne').2 hfits
  have hexponent : (-53 : ℤ) + (n.log2 + 1 : ℕ) = n.log2 - 52 := by omega
  unfold roundedSignificand roundedExponent
  rw [hfloat, hmodel, ← hexponent]
  exact unpack_pack_roundWithAccuracy .positive hlog (by omega) (by omega) rfl
    (isRounded_significand hn)

/-! ### Small integers

Below `2 ^ 53` an integer keeps its value. It is made a float as a word, and multiplied by 1. -/

/-- An integer of 53 bits or less keeps its value. -/
theorem significand_of_small {n : ℕ} (hn : 0 < n) (hsmall : n < 2 ^ 53) :
    significand n = n * 2 ^ (52 - n.log2) ∧ IsNormal (significand n) := by
  have hlog : n.log2 < 53 := (Nat.log2_lt hn.ne').2 hsmall
  have hpow : (2 : ℕ) ^ 53 = 2 ^ (52 - n.log2) * 2 ^ (n.log2 + 1) := by
    rw [← Nat.pow_add]
    congr 1
    omega
  have hvalue : significand n = n * 2 ^ (52 - n.log2) := by
    unfold significand
    rw [hpow, ← Nat.mul_assoc, roundHalfEven_mul _ (Nat.two_pow_pos _)]
  have hbits : (n * 2 ^ (52 - n.log2)).log2 = 52 := by
    rw [log2_mul_two_pow hn]
    omega
  have hne : n * 2 ^ (52 - n.log2) ≠ 0 := (Nat.mul_pos hn (Nat.two_pow_pos _)).ne'
  exact ⟨hvalue, hvalue ▸ (Nat.log2_eq_iff hne).1 hbits⟩

theorem unpack_toFloat {n : ℕ} (hn : 0 < n) (hsmall : n < 2 ^ 53) :
    ∃ hpos, n.toUInt64.toFloat.toModel.unpack =
      .finite .positive (significand n) (n.log2 - 52) hpos := by
  obtain ⟨hvalue, hnormal⟩ := significand_of_small hn hsmall
  have hbits : n.log2 < 53 := (Nat.log2_lt hn.ne').2 hsmall
  have hround : n.toUInt64.toFloat.toModel = Float.Model.pack
      (roundWithAccuracy binary64 .positive (significand n) (n.log2 - 52) .exact) := by
    show Float.Model.pack (UnpackedFloat.ofNat binary64 n.toUInt64.toNat) = _
    have hmod : n.toUInt64.toNat = n := Nat.mod_eq_of_lt (by omega)
    have htarget : binary64.targetExponent (totalExponent n 0) = n.log2 - 52 := by
      show max ((n.log2 + 1 + 0 : ℤ) - 53) (-1074) = n.log2 - 52
      omega
    have hshift : ((0 : ℤ) - (n.log2 - 52)).toNat = 52 - n.log2 := by omega
    have hexponent : (0 : ℤ) - (52 - n.log2 : ℕ) = n.log2 - 52 := by omega
    have hpositive : compare (n : ℤ) 0 = .gt := compare_gt_iff_gt.2 (by omega)
    rw [hmod]
    simp only [UnpackedFloat.ofNat, UnpackedFloat.ofInt, UnpackedFloat.normalize, hpositive,
      UnpackedFloat.round, Int.toNat_natCast, decreaseExponent, htarget, hshift, hexponent,
      Nat.shiftLeft_eq, ← hvalue]
  have hrounded : roundHalfEven (significand n) (2 ^ 0) = significand n := by
    simpa using roundHalfEven_mul (significand n) Nat.one_pos
  have hunpack := @unpack_pack_roundWithAccuracy _ 0 _ (n.log2 - 52) .positive
    (log2_of_isNormal hnormal) (by omega) (by omega) hrounded hnormal.isRounded
  simpa only [hround, carry_of_isNormal hnormal, carried_of_isNormal hnormal, Int.natCast_zero,
    Int.add_zero] using hunpack

theorem unpack_ofNat_small {n : ℕ} (hn : 0 < n) (hsmall : n < 2 ^ 53) :
    ∃ hpos, (Float.ofNat n).toModel.unpack =
      .finite .positive (roundedSignificand n) (roundedExponent n) hpos := by
  obtain ⟨hpos, hfloat⟩ := unpack_toFloat hn hsmall
  obtain ⟨hvalue, hnormal⟩ := significand_of_small hn hsmall
  have hproduct : (Float.ofNat n).toModel = Float.Model.pack (roundWithAccuracy binary64 .positive
      (significand n * 2 ^ 52) (n.log2 - 52 + -52) .exact) := by
    show (Float.ofScientific n false 0).toModel = _
    unfold Float.ofScientific
    rw [dif_pos ⟨hsmall, by decide⟩]
    show Float.Model.pack (UnpackedFloat.mul binary64 n.toUInt64.toFloat.toModel.unpack
      (Float.ofBits 0x3FF0000000000000).toModel.unpack) = _
    rw [hfloat]
    rfl
  have hlog : (significand n * 2 ^ 52).log2 = 52 + 52 := by
    rw [log2_mul_two_pow hpos, log2_of_isNormal hnormal]
  have hbits : n.log2 < 53 := (Nat.log2_lt hn.ne').2 hsmall
  have hexponent : (n.log2 : ℤ) - 52 + -52 + (52 : ℕ) = n.log2 - 52 := by omega
  have hrounded := roundHalfEven_mul (significand n) (Nat.two_pow_pos 52)
  have hunpack := @unpack_pack_roundWithAccuracy _ 52 _ (n.log2 - 52 + -52) .positive hlog
    (by omega) (by omega) hrounded hnormal.isRounded
  rw [hexponent] at hunpack
  unfold roundedSignificand roundedExponent
  exact hproduct ▸ hunpack

/-! ### All integers -/

theorem unpack_ofNat {n : ℕ} (hn : 0 < n) (hfits : n < 2 ^ 64) :
    ∃ hpos, (Float.ofNat n).toModel.unpack =
      .finite .positive (roundedSignificand n) (roundedExponent n) hpos := by
  rcases Nat.lt_or_ge n (2 ^ 53) with hsmall | hlarge
  · exact unpack_ofNat_small hn hsmall
  · exact unpack_ofNat_large hlarge hfits

theorem unpack_neg_ofNat {n : ℕ} (hn : 0 < n) (hfits : n < 2 ^ 64) :
    ∃ hpos, (Float.neg (Float.ofNat n)).toModel.unpack =
      .finite .negative (roundedSignificand n) (roundedExponent n) hpos := by
  obtain ⟨hpos, hunpack⟩ := unpack_ofNat hn hfits
  have hbits : n.log2 < 64 := (Nat.log2_lt hn.ne').2 hfits
  have hcarry := carry_le_one (significand n)
  refine ⟨hpos, ?_⟩
  show (Float.Model.pack (Float.ofNat n).toModel.unpack.neg).unpack = _
  rw [hunpack]
  refine unpack_pack .negative (isNormal_carried (isRounded_significand hn)) ?_ ?_ hpos <;>
    unfold roundedExponent <;> omega

theorem rank?_ofInt {n : ℤ} (hfits : n.natAbs < 2 ^ 64) :
    rank? (Float.ofInt n) = some (intRank n) := by
  rcases n with (_ | n) | n
  · rfl
  · obtain ⟨hpos, hunpack⟩ := unpack_ofNat n.succ_pos hfits
    exact (congrArg unpackedRank? hunpack).trans (congrArg some (intRank_natCast n.succ_pos).symm)
  · obtain ⟨hpos, hunpack⟩ := unpack_neg_ofNat n.succ_pos hfits
    exact (congrArg unpackedRank? hunpack).trans
      (congrArg some (intRank_neg_natCast n.succ_pos).symm)

end FloatOrder

end DynLisp
