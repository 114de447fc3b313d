import DynLisp.Proofs.Number.SignificantDigits
import DynLisp.Proofs.Reading.Readable

/-!
# Decimals as texts

What is written of a number counted in decimal places (`toList_decimal`): the whole part, and behind
a point the fraction without the zeros at its end. With a sign before it and an exponent after it
this is a numeral of the grammar (`literal_pointed`), and nothing of the number is lost with the
zeros (`toRat_decimal`).
-/

namespace DynLisp

namespace Reader

/-! ## Digits -/

theorem Digits.not_mem {ds : List Char} (h : Digits ds) {c : Char} (hc : isDigit c = false) :
    c ∉ ds := by
  intro hmem
  rw [digits_iff.1 h c hmem] at hc
  cases hc

theorem digits_zeros (k : ℕ) : Digits (List.replicate k '0') := by
  refine digits_iff.2 fun c hc => ?_
  rw [List.eq_of_mem_replicate hc]
  decide

theorem digitsValue_toDigits (n : ℕ) : digitsValue (Nat.toDigits 10 n) = n :=
  Nat.ofDigitChars_ten_toDigits

theorem digitsValue_zeros (ds : List Char) (k : ℕ) :
    digitsValue (ds ++ List.replicate k '0') = digitsValue ds * 10 ^ k := by
  unfold digitsValue
  rw [Nat.ofDigitChars_append, Nat.ofDigitChars_replicate_zero, Nat.mul_comm]

end Reader

open Reader

namespace Number

theorem digits_padded (width n : ℕ) : Digits (padded width n) :=
  List.forall_mem_append.2 ⟨digits_zeros _, digits_toDigits n⟩

theorem digitsValue_padded (width n : ℕ) : digitsValue (padded width n) = n := by
  unfold digitsValue padded
  rw [Nat.ofDigitChars_append, Nat.ofDigitChars_replicate_zero, Nat.mul_zero,
    Nat.ofDigitChars_ten_toDigits]

theorem length_padded {width n : ℕ} (hwidth : 0 < width) (hn : n < 10 ^ width) :
    (padded width n).length = width := by
  have hle : (Nat.toDigits 10 n).length ≤ width :=
    (Nat.length_toDigits_le_iff (by decide) hwidth).2 hn
  simp only [padded, List.length_append, List.length_replicate]
  omega

/-! ## Trailing zeros -/

/-- Trimming takes zeros off, and nothing else. -/
theorem exists_zeros (digits : List Char) :
    ∃ k, trimZeros digits ++ List.replicate k '0' = digits := by
  have hzeros : digits.reverse.takeWhile (· == '0') =
      List.replicate (digits.reverse.takeWhile (· == '0')).length '0' :=
    List.eq_replicate_iff.2 ⟨rfl, fun c hc => by simpa using List.mem_takeWhile_imp hc⟩
  refine ⟨(digits.reverse.takeWhile (· == '0')).length, ?_⟩
  calc trimZeros digits ++ List.replicate (digits.reverse.takeWhile (· == '0')).length '0'
      = (digits.reverse.dropWhile (· == '0')).reverse ++
          (digits.reverse.takeWhile (· == '0')).reverse := by
        rw [trimZeros, ← List.reverse_replicate, ← hzeros]
    _ = (digits.reverse.takeWhile (· == '0') ++ digits.reverse.dropWhile (· == '0')).reverse :=
        List.reverse_append.symm
    _ = digits := by rw [List.takeWhile_append_dropWhile, List.reverse_reverse]

/-- Trimming leaves no zero at the end. -/
theorem getLast?_trimZeros (digits : List Char) : (trimZeros digits).getLast? ≠ some '0' := by
  rw [trimZeros, List.getLast?_reverse]
  intro h
  cases head?_dropWhile_false (· == '0') digits.reverse '0' h

/-! ## The text of a number of decimal places -/

/-- A fraction behind its point, which is left out if there is no fraction. -/
def pointed (fraction : List Char) : List Char :=
  if fraction = [] then [] else '.' :: fraction

theorem point_mem_pointed {fraction : List Char} : '.' ∈ pointed fraction ↔ fraction ≠ [] := by
  unfold pointed
  split <;> simp [*]

theorem mark_not_mem_pointed {fraction : List Char} (h : Digits fraction) :
    'e' ∉ pointed fraction := by
  unfold pointed
  split
  · exact List.not_mem_nil
  · rw [List.mem_cons, not_or]
    exact ⟨by decide, h.not_mem (by decide)⟩

/-- The digits that are written behind the point. -/
def fractionDigits (n places : ℕ) : List Char :=
  trimZeros (padded places (n % 10 ^ places))

variable (n places : ℕ)

theorem toList_decimal : (decimal n places).toList =
    Nat.toDigits 10 (n / 10 ^ places) ++ pointed (fractionDigits n places) := by
  unfold decimal
  dsimp only
  rw [show Nat.pow 10 places = 10 ^ places from rfl,
    show trimZeros _ = fractionDigits n places from rfl]
  unfold pointed
  split
  · rename_i h
    rw [if_pos h]
    simp
  · rename_i h
    rw [if_neg h]
    simp

theorem digits_fractionDigits : Digits (fractionDigits n places) := by
  intro c hc
  obtain ⟨k, hk⟩ := exists_zeros (padded places (n % 10 ^ places))
  exact digits_padded _ _ c (hk ▸ List.mem_append_left _ hc)

theorem fractionDigits_zero : fractionDigits n 0 = [] := by
  rw [fractionDigits, Nat.pow_zero, Nat.mod_one]
  decide

/-- The digits on both sides of the point make up the number, with the zeros that were left out. -/
theorem digitsValue_decimal : ∃ k, k + (fractionDigits n places).length = places ∧
    digitsValue (Nat.toDigits 10 (n / 10 ^ places) ++ fractionDigits n places) * 10 ^ k = n := by
  rcases Nat.eq_zero_or_pos places with rfl | hpos
  · -- Without places there is no fraction to trim: its padded form is a zero all the same.
    refine ⟨0, by rw [fractionDigits_zero]; rfl, ?_⟩
    rw [fractionDigits_zero, List.append_nil, digitsValue_toDigits, Nat.pow_zero, Nat.div_one,
      Nat.mul_one]
  · obtain ⟨k, hk⟩ := exists_zeros (padded places (n % 10 ^ places))
    have hlength : (padded places (n % 10 ^ places)).length = places :=
      length_padded hpos (Nat.mod_lt n (Nat.pow_pos (by decide)))
    refine ⟨k, ?_, ?_⟩
    · rw [← hk, List.length_append, List.length_replicate] at hlength
      rw [fractionDigits]
      omega
    · rw [← digitsValue_zeros, List.append_assoc, fractionDigits, hk, digitsValue_append,
        digitsValue_toDigits, digitsValue_padded, hlength]
      exact Nat.div_add_mod' n _

end Number

/-! ## Numerals -/

namespace Reader

theorem SignText.not_mem {negative : Bool} {sign : List Char} (h : SignText negative sign)
    {c : Char} (hplus : c ≠ '+') (hminus : c ≠ '-') : c ∉ sign := by
  cases h with
  | none => exact List.not_mem_nil
  | plus => exact mt List.mem_singleton.1 hplus
  | minus => exact mt List.mem_singleton.1 hminus

theorem ExponentText.point_not_mem {e : ℤ} {text : List Char} (h : ExponentText e text) :
    '.' ∉ text := by
  cases h with
  | none => exact List.not_mem_nil
  | mark hmark hinteger =>
    obtain ⟨negative, sign, ds, hsign, hds, -, rfl, -⟩ := integerText_iff.1 hinteger
    rw [List.mem_cons, List.mem_append, not_or, not_or]
    refine ⟨?_, hsign.not_mem (by decide) (by decide), hds.not_mem (by decide)⟩
    rcases hmark with rfl | rfl <;> decide

/-- A numeral whose point is left out if there are no digits behind it. -/
theorem literal_pointed {negative : Bool} {sign whole fraction exponent : List Char} {e : ℤ}
    (hsign : SignText negative sign) (hwhole : Digits whole) (hne : whole ≠ [])
    (hfraction : Digits fraction) (he : ExponentText e exponent) :
    Literal ⟨negative, whole, fraction, e, fraction.isEmpty && exponent.isEmpty⟩
      (sign ++ whole ++ (Number.pointed fraction ++ exponent)) := by
  by_cases hnil : fraction = []
  · subst hnil
    by_cases hbare : exponent = []
    · subst hbare
      cases he
      rw [show Number.pointed [] ++ [] = [] from rfl, List.append_nil]
      exact .integer hsign hwhole hne
    · rw [List.isEmpty_eq_false_iff.2 hbare]
      exact .exponent hsign hwhole hne he hbare
  · rw [List.isEmpty_eq_false_iff.2 hnil, Number.pointed, if_neg hnil]
    exact .point hsign hwhole hfraction (.inl hne) he

/-- The number that a numeral denotes. -/
def Numeral.toRat (n : Numeral) : ℚ :=
  (if n.negative then -1 else 1) * digitsValue (n.whole ++ n.fraction) *
    10 ^ (n.exponent - n.fraction.length)

end Reader

namespace Number

theorem toRat_decimal (negative integer : Bool) (n places : ℕ) (e : ℤ) :
    Numeral.toRat
        ⟨negative, Nat.toDigits 10 (n / 10 ^ places), fractionDigits n places, e, integer⟩ =
      (if negative then -1 else 1) * (n * 10 ^ (e - places)) := by
  obtain ⟨k, hk, hvalue⟩ := digitsValue_decimal n places
  have hexponent : e - (fractionDigits n places).length = k + (e - places) := by omega
  unfold Numeral.toRat
  dsimp only
  rw [hexponent, zpow_add₀ (by decide), zpow_natCast, mul_assoc, ← mul_assoc _ ((10 : ℚ) ^ k)]
  congr 2
  exact_mod_cast hvalue

end Number

end DynLisp
