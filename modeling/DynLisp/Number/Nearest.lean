import DynLisp.Number.Decimal

/-!
# The float nearest to a decimal
-/

namespace DynLisp.Number

/-- Positive infinity. -/
def infinity : Float := Float.ofBits 0x7ff0000000000000

/-- The float nearest to `m · 10 ^ e`. Decimals from `10 ^ 310` on are beyond the largest float and
those below `10 ^ -330` nearer to zero than to the smallest, so that their exponents, which may be
of any size, are not raised to powers. -/
def nearest (m : Nat) (e : Int) : Float :=
  let magnitude := (digitCount m : Int) + e
  if m = 0 || magnitude < -330 then 0.0
  else if 310 < magnitude then infinity
  else Float.ofScientific m (e < 0) e.natAbs

end DynLisp.Number
