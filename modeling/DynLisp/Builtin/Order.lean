import DynLisp.Value.Access

/-!
# Order

`<` compares numbers with numbers and symbols with symbols. Two integers are compared exactly, an
integer and a float as floats, symbols by their names.
-/

namespace DynLisp.Order

/-- Whether a value can be compared at all. -/
def isOrdered (v : Value) : Bool :=
  v.isNumber || v.isSymbol

/-- Whether one value is strictly less than another of the same kind. -/
def less? : Value → Value → Except EvalError Bool
  | .int n, .int m => .ok (n < m)
  | .symbol s, .symbol t => .ok (s < t)
  | v, w =>
    match v.toFloat?, w.toFloat? with
    | some x, some y => .ok (x < y)
    | _, _ => .error (.typeMismatch (.differentKinds v w))

/-- Whether a list of values increases. All neighbours are compared, also after the answer is
known, so that the kinds of all values are checked. -/
def increasing : List Value → Except EvalError Bool
  | v :: w :: vs => do
    let first ← less? v w
    let others ← increasing (w :: vs)
    return first && others
  | _ => .ok true

/-- The operation `<`: whether its operands increase. -/
def less (args : List Value) : Except EvalError Value :=
  match args.find? fun v => !isOrdered v with
  | some v => .error (.typeMismatch (.notOrdered v))
  | none => return .ofBool (← increasing args)

end DynLisp.Order
