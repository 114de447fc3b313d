import DynLisp.Number.Binary64

/-!
# Rounding to decimal places

An exact fraction is rounded to a number of decimal places (`fixed`) or of significant digits
(`scientific`), to the nearest and, of two nearest, to the even one. The main facts are
`two_mul_dist_roundHalfEven` (the result is within half a unit) and `roundHalfEven_even_of_tie`.
-/

namespace DynLisp

/-- The natural number nearest to `num / den`, the even one if two are equally near. -/
def roundHalfEven (num den : Nat) : Nat :=
  let q := num / den
  let r := num % den
  if 2 * r < den then q
  else if den < 2 * r then q + 1
  else q + q % 2

/-- How many decimal digits a number is written with. -/
def digitCount (n : Nat) : Nat :=
  (Nat.toDigits 10 n).length

namespace Magnitude

/-- The decimal exponent of a positive number: the `e` with `10 ^ e ≤ x < 10 ^ (e + 1)`. -/
def exponent10 (x : Magnitude) : Int :=
  if x.den ≤ x.num then
    (digitCount (x.num / x.den) : Int) - 1
  else
    let k := digitCount (x.den / x.num)
    if x.den ≤ x.num * Nat.pow 10 (k - 1) then -((k : Int) - 1) else -(k : Int)

/-- The nearest multiple of `10 ^ -places`, counted in that unit. -/
def fixed (x : Magnitude) (places : Nat) : Nat :=
  roundHalfEven (x.num * Nat.pow 10 places) x.den

/-- The nearest number with the given count of significant digits: its digits as one natural
number, and the exponent of the first of them. -/
def scientific (x : Magnitude) (digits : Nat) : Nat × Int :=
  let e := x.exponent10
  let y := x.scale (((digits : Int) - 1) - e)
  let m := roundHalfEven y.num y.den
  if m = Nat.pow 10 digits then (Nat.pow 10 (digits - 1), e + 1) else (m, e)

end Magnitude

/-! ## The rounding rule -/

theorem roundHalfEven_le (num den : Nat) : roundHalfEven num den ≤ num / den + 1 := by
  unfold roundHalfEven
  dsimp only
  split
  · omega
  · split <;> omega

theorem div_le_roundHalfEven (num den : Nat) : num / den ≤ roundHalfEven num den := by
  unfold roundHalfEven
  dsimp only
  split
  · omega
  · split <;> omega

/-- The rounded number is at most half a unit above. -/
theorem two_mul_roundHalfEven_le (num : Nat) {den : Nat} (_ : 0 < den) :
    2 * (roundHalfEven num den * den) ≤ 2 * num + den := by
  have hd := Nat.div_add_mod num den
  unfold roundHalfEven
  dsimp only
  generalize hq : num / den = q at *
  generalize hr : num % den = r at *
  have hc : den * q = q * den := Nat.mul_comm ..
  split
  · omega
  · have h1 : (q + 1) * den = q * den + den := Nat.succ_mul ..
    split
    · omega
    · rcases Nat.mod_two_eq_zero_or_one q with h | h <;> rw [h]
      · simp only [Nat.add_zero]; omega
      · omega

/-- The rounded number is at most half a unit below. -/
theorem le_two_mul_roundHalfEven (num : Nat) {den : Nat} (hpos : 0 < den) :
    2 * num ≤ 2 * (roundHalfEven num den * den) + den := by
  have hd := Nat.div_add_mod num den
  have hlt := Nat.mod_lt num hpos
  unfold roundHalfEven
  dsimp only
  generalize hq : num / den = q at *
  generalize hr : num % den = r at *
  have hc : den * q = q * den := Nat.mul_comm ..
  split
  · omega
  · have h1 : (q + 1) * den = q * den + den := Nat.succ_mul ..
    split
    · omega
    · rcases Nat.mod_two_eq_zero_or_one q with h | h <;> rw [h]
      · simp only [Nat.add_zero]; omega
      · omega

/-- Rounding keeps the order of fractions with one denominator. -/
theorem roundHalfEven_mono {num num' : Nat} (h : num ≤ num') (den : Nat) :
    roundHalfEven num den ≤ roundHalfEven num' den := by
  rcases Nat.lt_or_eq_of_le (Nat.div_le_div_right h : num / den ≤ num' / den) with hlt | heq
  · have hbelow := roundHalfEven_le num den
    have habove := div_le_roundHalfEven num' den
    omega
  · have hnum := Nat.div_add_mod num den
    have hnum' := Nat.div_add_mod num' den
    rw [heq] at hnum
    -- The quotients agree, so the remainders decide.
    have hrest : num % den ≤ num' % den := by omega
    unfold roundHalfEven
    dsimp only
    rw [heq]
    repeat' split
    all_goals omega

/-- What is a whole number is kept. -/
theorem roundHalfEven_mul (m : Nat) {den : Nat} (hden : 0 < den) :
    roundHalfEven (m * den) den = m := by
  simp only [roundHalfEven, Nat.mul_mod_left, Nat.mul_zero, if_pos hden,
    Nat.mul_div_cancel m hden]

/-- Of two equally near numbers the even one is taken. -/
theorem roundHalfEven_even_of_tie {num den : Nat} (h : 2 * (num % den) = den) :
    roundHalfEven num den % 2 = 0 := by
  unfold roundHalfEven
  dsimp only
  rw [if_neg (by omega), if_neg (by omega)]
  omega

end DynLisp
