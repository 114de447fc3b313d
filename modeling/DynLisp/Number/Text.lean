import DynLisp.Number.Shortest

/-!
# How floats are written

There are two written forms. `Float.display` is for programs: integral values with all their digits
and `.0`, all others with at most six significant digits. `Float.debug` is for programmers: the
fewest digits that read back, always with a point or an exponent.
-/

namespace DynLisp.Number

/-- A number written with at least `width` digits. -/
def padded (width n : Nat) : List Char :=
  let digits := Nat.toDigits 10 n
  List.replicate (width - digits.length) '0' ++ digits

/-- A list of digits without the zeros at its end. -/
def trimZeros (digits : List Char) : List Char :=
  (digits.reverse.dropWhile (· == '0')).reverse

/-- A number counted in units of `10 ^ -places`: the whole part, and after a point the fraction
without trailing zeros. A fraction of zeros only is left out, with its point. -/
def decimal (n places : Nat) : String :=
  let unit := Nat.pow 10 places
  let whole := toString (n / unit)
  match trimZeros (padded places (n % unit)) with
  | [] => whole
  | fraction => whole ++ "." ++ String.ofList fraction

/-- How exponents and small or large numbers are written in one of the written forms. -/
structure Layout where
  /-- Exponents below this one are written with an exponent mark. -/
  lowest : Int
  /-- Exponents from this one on are written with an exponent mark. -/
  highest : Int
  /-- What stands between the mark and a non-negative exponent. -/
  plus : String
  /-- The least number of digits of an exponent. -/
  exponentWidth : Nat

/-- Whether a number whose first digit has this exponent is written with an exponent mark. -/
def Layout.marksExponent (style : Layout) (e : Int) : Bool :=
  e < style.lowest || style.highest ≤ e

/-- A mantissa with one digit before the point, and the exponent of that digit. -/
def Layout.withExponent (style : Layout) (digits places : Nat) (e : Int) : String :=
  decimal digits places ++ "e" ++ (if e < 0 then "-" else style.plus) ++
    String.ofList (padded style.exponentWidth e.natAbs)

/-- Six significant digits, with an exponent of at least two digits outside 10⁻⁴ … 10⁶. -/
def displayed : Layout where
  lowest := -4
  highest := 6
  plus := "+"
  exponentWidth := 2

/-- As many digits as needed, with a bare exponent outside 10⁻⁴ … 10¹⁶. -/
def debugged : Layout where
  lowest := -4
  highest := 16
  plus := ""
  exponentWidth := 1

/-- How many significant digits the displayed form of a non-integral float has at most. -/
def significantDigits : Nat := 6

/-- The displayed form of a magnitude. The exponent is that of the number rounded to six
significant digits; without an exponent mark the number is rounded to the places that are left. -/
def displayMagnitude (x : Magnitude) : String :=
  if x.isIntegral then
    toString (x.num / x.den) ++ ".0"
  else
    let (digits, e) := x.scientific significantDigits
    if displayed.marksExponent e then
      displayed.withExponent digits (significantDigits - 1) e
    else
      let places := ((significantDigits : Int) - 1 - e).toNat
      decimal (x.fixed places) places

/-- The debug form of the magnitude `m · 2 ^ q`. -/
def debugMagnitude (m : Nat) (q : Int) : String :=
  if m = 0 then
    "0.0"
  else
    let (c, g) := shortest m q
    let places := digitCount c - 1
    let e := g + places
    if debugged.marksExponent e then
      debugged.withExponent c places e
    else if 0 ≤ g then
      toString (c * Nat.pow 10 g.toNat) ++ ".0"
    else
      decimal c (-g).toNat

/-- The text of a number with its sign. -/
def signed (negative : Bool) (text : String) : String :=
  if negative then "-" ++ text else text

/-- What `print` shows of a float. -/
def display (x : Float) : String :=
  match Binary64.ofFloat x with
  | .nan => "nan"
  | .infinite negative => signed negative "inf"
  | .finite negative m q => signed negative (displayMagnitude (Magnitude.ofBinary m q))

/-- What the debug text of a value shows of a float. -/
def debug (x : Float) : String :=
  match Binary64.ofFloat x with
  | .nan => "NaN"
  | .infinite negative => signed negative "inf"
  | .finite negative m q => signed negative (debugMagnitude m q)

end DynLisp.Number
