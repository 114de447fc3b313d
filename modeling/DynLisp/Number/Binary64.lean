/-!
# What a binary64 float denotes

A float is taken apart into sign, significand and exponent once, by `Binary64.ofFloat`; printing
and rounding then work on exact fractions of natural numbers (`Magnitude`).
-/

namespace DynLisp

/-- The meaning of a float: `finite negative m q` is the number `m · 2 ^ q`, negated if
`negative` holds. Zero keeps its sign. -/
inductive Binary64 where
  | nan
  | infinite (negative : Bool)
  | finite (negative : Bool) (significand : Nat) (exponent : Int)
deriving DecidableEq

namespace Binary64

/-- The weight of the sign bit, `2 ^ 63`. -/
def signBit : Nat := 0x8000000000000000

/-- The weight of the leading bit of a significand, which is not stored: `2 ^ 52`. -/
def hiddenBit : Nat := 0x10000000000000

/-- The parts of a float: one sign bit, eleven exponent bits, fifty-two fraction bits. The lowest
exponent field has no hidden bit, the highest holds the infinities and NaN. -/
def ofFloat (x : Float) : Binary64 :=
  let bits : Nat := x.toBits.toNat
  let negative := decide (signBit ≤ bits)
  let field : Nat := bits / hiddenBit % 2048
  let fraction : Nat := bits % hiddenBit
  if field = 2047 then
    if fraction = 0 then infinite negative else nan
  else if field = 0 then
    finite negative fraction (-1074)
  else
    finite negative (fraction + hiddenBit) ((field : Int) - 1075)

end Binary64

/-- A non-negative rational number, as a fraction that need not be in lowest terms. -/
structure Magnitude where
  num : Nat
  den : Nat
  den_pos : 0 < den

namespace Magnitude

/-- The number `m · 2 ^ q`. -/
def ofBinary (m : Nat) (q : Int) : Magnitude where
  num := m * Nat.pow 2 q.toNat
  den := Nat.pow 2 (-q).toNat
  den_pos := Nat.two_pow_pos _

/-- The number `x · 10 ^ e`. -/
def scale (x : Magnitude) (e : Int) : Magnitude where
  num := x.num * Nat.pow 10 e.toNat
  den := x.den * Nat.pow 10 (-e).toNat
  den_pos := Nat.mul_pos x.den_pos (Nat.pow_pos (by decide))

def isIntegral (x : Magnitude) : Bool :=
  x.num % x.den == 0

end Magnitude

namespace Binary64

/-- The exact integer that a finite float rounds down to; none for the infinities and NaN. -/
def floor? : Binary64 → Option Int
  | finite negative m q =>
    let x := Magnitude.ofBinary m q
    let whole : Int := if negative then -x.num else x.num
    some (whole.fdiv x.den)
  | _ => none

/-- The exact integer that a finite float rounds up to; none for the infinities and NaN. -/
def ceil? : Binary64 → Option Int
  | finite negative m q => (floor? (finite (!negative) m q)).map (- ·)
  | _ => none

end Binary64

end DynLisp
