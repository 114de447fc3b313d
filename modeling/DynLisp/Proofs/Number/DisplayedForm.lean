import DynLisp.Proofs.Number.DecimalText
import DynLisp.Proofs.Number.FloatFields

/-!
# What the displayed form of a float denotes

The displayed form of a float that is no integer is a numeral for the nearest decimal with six
significant digits (`displayed_float_is_nearest_decimal`). Whether it has an exponent mark is told
by the exponent of that decimal. Without a mark the float is rounded once more, to the decimal
places that are left, and this is the same decimal (`Magnitude.fixed_div_eq_decimalRat`).
-/

namespace DynLisp

/-! ## Rounded fractions -/

namespace Magnitude

variable {x : Magnitude} {k m : ℕ} {e : ℤ}

theorem toRat_pos_iff : 0 < x.toRat ↔ 0 < x.num := by
  unfold toRat
  rw [div_pos_iff_of_pos_right (Nat.cast_pos.2 x.den_pos), Nat.cast_pos]

theorem toRat_pos_of_not_isIntegral (hx : x.isIntegral = false) : 0 < x.toRat := by
  rcases Nat.eq_zero_or_pos x.num with hzero | hpos
  · rw [isIntegral, hzero, Nat.zero_mod] at hx
    cases hx
  · exact toRat_pos_iff.2 hpos

theorem scientific_eq_of_isNearestDecimal (hx : 0 < x.toRat) (hk : 2 ≤ k)
    (h : IsNearestDecimal k x.toRat m e) : x.scientific k = (m, e) :=
  (isNearestDecimal_scientific (toRat_pos_iff.1 hx) hk).unique (by omega) h

/-- Rounded to the places that are left after the point, a fraction is the same decimal. -/
theorem fixed_div_eq_decimalRat (hk : 0 < k) (h : x.scientific k = (m, e)) {places : ℕ}
    (hplaces : (places : ℤ) = k - 1 - e) :
    (x.fixed places : ℚ) / 10 ^ places = decimalRat k m e := by
  have hfixed : x.fixed places = m := by
    rw [fixed_of_scientific hk (by rw [h]; exact hplaces), h]
  rw [hfixed, decimalRat, show e + 1 - k = -(places : ℤ) by omega, zpow_neg, zpow_natCast]
  rfl

end Magnitude

open Reader

/-! ## Numerals with or without an exponent mark -/

namespace Reader

/-- How a decimal is displayed whose first digit counts `10 ^ e`: with all digits before the point,
without zeros at the end of the fraction, and with an exponent mark if the exponent is below -4 or
at least 6. -/
structure IsDisplayed (text : List Char) (n : Numeral) (e : ℤ) : Prop where
  ofChars?_eq : Numeral.ofChars? text = some n
  whole_eq : n.whole = Nat.toDigits 10 (digitsValue n.whole)
  getLast?_fraction : n.fraction.getLast? ≠ some '0'
  point_mem_iff : '.' ∈ text ↔ n.fraction ≠ []
  mark_mem_iff : 'e' ∈ text ↔ e < -4 ∨ 6 ≤ e
  exponent_eq : n.exponent = if e < -4 ∨ 6 ≤ e then e else 0

theorem isDisplayed_decimal {negative : Bool} {sign exponent : List Char} {e e' : ℤ} (n places : ℕ)
    (hsign : SignText negative sign) (he : ExponentText e' exponent)
    (hmark : 'e' ∈ exponent ↔ e < -4 ∨ 6 ≤ e) (he' : e' = if e < -4 ∨ 6 ≤ e then e else 0) :
    ∃ integer, IsDisplayed (sign ++ ((Number.decimal n places).toList ++ exponent))
      ⟨negative, Nat.toDigits 10 (n / 10 ^ places), Number.fractionDigits n places, e', integer⟩
      e := by
  have hwhole := digits_toDigits (n / 10 ^ places)
  have hfraction := Number.digits_fractionDigits n places
  have hliteral := literal_pointed hsign hwhole Nat.toDigits_ne_nil hfraction he
  have hsignPoint : '.' ∉ sign := hsign.not_mem (by decide) (by decide)
  have hsignMark : 'e' ∉ sign := hsign.not_mem (by decide) (by decide)
  rw [Number.toList_decimal, List.append_assoc (Nat.toDigits _ _), ← List.append_assoc sign]
  refine ⟨_, ofChars?_eq_some_iff.2 hliteral, ?_, Number.getLast?_trimZeros _, ?_, ?_, he'⟩
  · exact congrArg (Nat.toDigits 10) (digitsValue_toDigits _).symm
  · have hpoint : '.' ∉ Nat.toDigits 10 (n / 10 ^ places) := hwhole.not_mem (by decide)
    simp only [List.mem_append, hsignPoint, hpoint, he.point_not_mem, Number.point_mem_pointed,
      false_or, or_false]
  · have hbare : 'e' ∉ Nat.toDigits 10 (n / 10 ^ places) := hwhole.not_mem (by decide)
    simp only [List.mem_append, hsignMark, hbare, Number.mark_not_mem_pointed hfraction, hmark,
      false_or]

end Reader

namespace Number

theorem toList_signed (negative : Bool) (text : String) :
    ∃ sign, SignText negative sign ∧ (signed negative text).toList = sign ++ text.toList := by
  cases negative with
  | false => exact ⟨[], .none, rfl⟩
  | true => exact ⟨['-'], .minus, String.toList_append⟩

theorem marksExponent_displayed_iff {e : ℤ} :
    displayed.marksExponent e = true ↔ e < -4 ∨ 6 ≤ e := by
  unfold Layout.marksExponent
  rw [Bool.or_eq_true, decide_eq_true_eq, decide_eq_true_eq]
  rfl

theorem exponentText_withExponent (n places : ℕ) (e : ℤ) : ∃ exponent,
    ExponentText e ('e' :: exponent) ∧ (displayed.withExponent n places e).toList =
      (decimal n places).toList ++ 'e' :: exponent := by
  have hdigits := digits_padded displayed.exponentWidth e.natAbs
  have hvalue := digitsValue_padded displayed.exponentWidth e.natAbs
  have hne : padded displayed.exponentWidth e.natAbs ≠ [] :=
    List.append_ne_nil_of_right_ne_nil _ Nat.toDigits_ne_nil
  unfold Layout.withExponent
  by_cases hneg : e < 0
  · have h := ExponentText.mark (.inl rfl) (.signed .minus hdigits.digitsOf hne)
    rw [hvalue, if_pos rfl, show -(e.natAbs : ℤ) = e by omega] at h
    exact ⟨_, h, by simp [hneg]⟩
  · have h := ExponentText.mark (.inl rfl) (.signed .plus hdigits.digitsOf hne)
    rw [hvalue, if_neg (by decide), show (e.natAbs : ℤ) = e by omega] at h
    exact ⟨_, h, by simp [hneg, displayed]⟩

/-! ## The displayed form -/

/-- The displayed form of a fraction denotes what the fraction is rounded to. -/
theorem isDisplayed_displayMagnitude {x : Magnitude} (hx : x.isIntegral = false)
    (negative : Bool) :
    ∃ n, IsDisplayed (signed negative (displayMagnitude x)).toList n (x.scientific 6).2 ∧
      n.toRat = (if negative then -1 else 1) *
        decimalRat 6 (x.scientific 6).1 (x.scientific 6).2 := by
  obtain ⟨sign, hsign, htext⟩ := toList_signed negative (displayMagnitude x)
  rw [htext]
  unfold displayMagnitude
  rw [if_neg (Bool.eq_false_iff.1 hx), significantDigits]
  dsimp only
  generalize hm : (x.scientific 6).1 = m
  generalize he : (x.scientific 6).2 = e
  by_cases hmarked : e < -4 ∨ 6 ≤ e
  · obtain ⟨exponent, hexponent, hlist⟩ := exponentText_withExponent m 5 e
    obtain ⟨integer, hdisplayed⟩ := isDisplayed_decimal m 5 hsign hexponent
      (by simp [hmarked]) (if_pos hmarked).symm
    rw [if_pos (marksExponent_displayed_iff.2 hmarked), hlist]
    refine ⟨_, hdisplayed, ?_⟩
    rw [toRat_decimal, decimalRat, show e - (5 : ℕ) = e + 1 - (6 : ℕ) by omega]
  · obtain ⟨places, hplaces⟩ : ∃ places : ℕ, (places : ℤ) = 5 - e := ⟨(5 - e).toNat, by omega⟩
    have hcount : (((6 : ℕ) : ℤ) - 1 - e).toNat = places := by omega
    have hfixed : x.fixed places = m :=
      hm ▸ Magnitude.fixed_of_scientific (by decide) (by rw [he]; exact hplaces)
    obtain ⟨integer, hdisplayed⟩ := isDisplayed_decimal m places hsign ExponentText.none
      (by simp [hmarked]) (if_neg hmarked).symm
    rw [List.append_nil] at hdisplayed
    rw [if_neg (mt marksExponent_displayed_iff.1 hmarked), hcount, hfixed]
    refine ⟨_, hdisplayed, ?_⟩
    rw [toRat_decimal, decimalRat, show (0 : ℤ) - places = e + 1 - (6 : ℕ) by omega]

/-- A float that stands for a number other than an integer has a fraction with this number. -/
theorem exists_fraction_of_number? {x : Float} {r : ℚ}
    (hx : FloatEquality.number? x = some (.rational r)) (hr : ∀ n : ℤ, r ≠ n) :
    ∃ negative y, display x = signed negative (displayMagnitude y) ∧ y.isIntegral = false ∧
      r = (if negative then -1 else 1) * y.toRat := by
  obtain ⟨negative, c, q, hfields, hvalue⟩ := FloatEquality.exists_finite_of_number? hx
  have hscaled : FloatEquality.scaled c q = (Magnitude.ofBinary c q).toRat :=
    (Magnitude.toRat_ofBinary c q).symm
  have hmagnitude : r = (if negative then -1 else 1) * (Magnitude.ofBinary c q).toRat := by
    rw [hvalue, hscaled]
    cases negative <;> simp
  refine ⟨negative, Magnitude.ofBinary c q, by rw [display, hfields], ?_, hmagnitude⟩
  rw [← Bool.not_eq_true, Magnitude.isIntegral_iff]
  rintro ⟨n, hn⟩
  rw [hn] at hmagnitude
  cases negative with
  | false => exact hr n (by rw [hmagnitude]; simp)
  | true => exact hr (-n) (by rw [hmagnitude]; simp)

/-- The displayed form of a float that is no integer denotes the nearest decimal with six
significant digits. It has an exponent mark if the exponent of this decimal is out of range. However
the number of the float is written as a fraction, that decimal is what the fraction is rounded to,
by its significant digits and also by the places after the point. -/
theorem displayed_float_is_nearest_decimal (x : Float) (r : ℚ)
    (hx : FloatEquality.number? x = some (.rational r)) (hr : ∀ n : ℤ, r ≠ n) :
    ∃ m e, (∀ m' e', IsNearestDecimal 6 |r| m' e' ↔ (m', e') = (m, e)) ∧
      (∃ n, IsDisplayed (display x).toList n e ∧
        n.toRat = if r < 0 then -decimalRat 6 m e else decimalRat 6 m e) ∧
      ∀ y : Magnitude, y.toRat = |r| → y.scientific 6 = (m, e) ∧
        ∀ places : ℕ, (places : ℤ) = 5 - e →
          (y.fixed places : ℚ) / 10 ^ places = decimalRat 6 m e := by
  obtain ⟨negative, y, htext, hfraction, hvalue⟩ := exists_fraction_of_number? hx hr
  have hpos : 0 < y.toRat := Magnitude.toRat_pos_of_not_isIntegral hfraction
  have habs : |r| = y.toRat := by
    rw [hvalue, abs_mul, abs_of_pos hpos]
    cases negative <;> simp
  have hsign : r < 0 ↔ negative = true := by
    rw [hvalue]
    cases negative <;> simp [hpos, hpos.le]
  have hnearest : IsNearestDecimal 6 y.toRat (y.scientific 6).1 (y.scientific 6).2 :=
    Magnitude.isNearestDecimal_scientific (Magnitude.toRat_pos_iff.1 hpos) (by decide)
  rw [habs]
  refine ⟨_, _, fun m' e' => ⟨fun h => h.unique (by decide) hnearest, ?_⟩, ?_, fun y' hy' => ?_⟩
  · rintro ⟨rfl, rfl⟩
    exact hnearest
  · obtain ⟨n, hdisplayed, hn⟩ := isDisplayed_displayMagnitude hfraction negative
    refine ⟨n, htext ▸ hdisplayed, ?_⟩
    rw [hn]
    cases negative <;> simp [hsign]
  · have hscientific : y'.scientific 6 = y.scientific 6 :=
      Magnitude.scientific_eq_of_isNearestDecimal (hy' ▸ hpos) (by decide) (hy' ▸ hnearest)
    exact ⟨hscientific, fun places hplaces =>
      Magnitude.fixed_div_eq_decimalRat (by decide) hscientific hplaces⟩

/-- Just below ten the six digits carry, and the displayed form has no fraction left. -/
theorem display_below_ten :
    let x := Float.ofBits 0x4023fffff29406b3
    let r := FloatEquality.scaled 5629499309033139 (-49)
    FloatEquality.number? x = some (.rational r) ∧ (∀ n : ℤ, r ≠ n) ∧ display x = "10" ∧
      IsNearestDecimal 6 |r| 100000 1 ∧ ∃ n, IsDisplayed (display x).toList n 1 ∧
        n.toRat = decimalRat 6 100000 1 := by
  have hfields : Binary64.ofFloat (Float.ofBits 0x4023fffff29406b3) =
      .finite false 5629499309033139 (-49) := by decide
  have hx : FloatEquality.number? (Float.ofBits 0x4023fffff29406b3) =
      some (.rational (FloatEquality.scaled 5629499309033139 (-49))) := by
    rw [FloatEquality.number?_eq, hfields]
    rfl
  have hpos := FloatEquality.scaled_pos (show 0 < 5629499309033139 by decide) (-49)
  have hr : ∀ n : ℤ, FloatEquality.scaled 5629499309033139 (-49) ≠ n := by
    intro n hn
    have hmultiple : (5629499309033139 : ℚ) = n * 2 ^ 49 := by
      rw [← hn, FloatEquality.scaled]
      norm_num
    have hmultiple' : (5629499309033139 : ℤ) = n * 2 ^ 49 := by exact_mod_cast hmultiple
    omega
  obtain ⟨m, e, hnearest, ⟨n, hdisplayed, hn⟩, hrounded⟩ :=
    displayed_float_is_nearest_decimal _ _ hx hr
  have hmagnitude : (Magnitude.ofBinary 5629499309033139 (-49)).toRat =
      |FloatEquality.scaled 5629499309033139 (-49)| := by
    rw [abs_of_pos hpos]
    exact Magnitude.toRat_ofBinary _ _
  have hscientific : (Magnitude.ofBinary 5629499309033139 (-49)).scientific 6 = (100000, 1) := by
    decide
  cases hscientific.symm.trans (hrounded _ hmagnitude).1
  refine ⟨hx, hr, ?_, (hnearest _ _).2 rfl, n, hdisplayed, ?_⟩
  · rw [display, hfields]
    decide
  · rw [hn, if_neg hpos.not_gt]

end Number

end DynLisp
