import DynLisp.Number.Decimal

/-!
# The fewest digits that read back

A float stands for every real number that rounds to it. `shortest` looks for a decimal with as few
significant digits as possible among those numbers: for 1, 2, … digits it tries the two neighbours
of the float on the grid of that many digits, and takes the first grid with a hit.
-/

namespace DynLisp

/-- The real numbers that round to one float, in units of `2 ^ unit`, and the float itself. The
ends belong to the interval iff `closed` holds. -/
structure RoundingInterval where
  low : Nat
  value : Nat
  high : Nat
  unit : Int
  closed : Bool

namespace RoundingInterval

/-- The interval of the positive float `m · 2 ^ q`. Below a power of two the next float is only
half as far away, unless the exponent is the lowest one. Ties go to the even significand. -/
def ofBinary (m : Nat) (q : Int) : RoundingInterval where
  low := 4 * m - (if m = Binary64.hiddenBit ∧ -1074 < q then 1 else 2)
  value := 4 * m
  high := 4 * m + 2
  unit := q - 2
  closed := m % 2 == 0

/-- Whether the decimal `c` lies in the interval, where one unit of the interval counts as
`num / den`. -/
def contains (i : RoundingInterval) (num den c : Nat) : Bool :=
  let x := c * den
  if i.closed then i.low * num ≤ x && x ≤ i.high * num else i.low * num < x && x < i.high * num

/-- The decimal on the grid `10 ^ g` that lies in the interval and is nearest to the float, the
upper one if two are equally near. -/
def nearest? (i : RoundingInterval) (g : Int) : Option Nat :=
  let scale := (Magnitude.ofBinary 1 i.unit).scale (-g)
  let x := i.value * scale.num
  let below := x / scale.den
  let above := below + 1
  let upper := scale.den ≤ 2 * (x % scale.den)
  match i.contains scale.num scale.den below, i.contains scale.num scale.den above with
  | true, true => some (if upper then above else below)
  | true, false => some below
  | false, true => some above
  | false, false => none

end RoundingInterval

/-- A decimal without its trailing zeros, which go into the exponent; at most `fuel` of them. -/
def stripZeros : (fuel : Nat) → Nat → Int → Nat × Int
  | 0, c, g => (c, g)
  | fuel + 1, c, g => if c % 10 = 0 ∧ c ≠ 0 then stripZeros fuel (c / 10) (g + 1) else (c, g)

/-- The shortest decimal `c · 10 ^ g` that rounds to the positive float `m · 2 ^ q`, and of several
the nearest to it. Seventeen digits are always enough. -/
def shortest (m : Nat) (q : Int) : Nat × Int :=
  let i := RoundingInterval.ofBinary m q
  let e := (Magnitude.ofBinary m q).exponent10
  let hit := (List.range 17).findSome? fun (n : Nat) =>
    let g := e - n
    (i.nearest? g).map fun c => stripZeros 18 c g
  hit.getD (0, 0)

end DynLisp
