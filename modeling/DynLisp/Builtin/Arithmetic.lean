import DynLisp.Builtin.Basic
import DynLisp.Number.Range
import DynLisp.Value.Access

/-!
# Arithmetic

Arithmetic is exact on integers, and fails rather than wraps. One float among the operands makes
all of them floats. Division fails on an exact zero divisor in either case; by a zero float it
gives an infinity or NaN.
-/

namespace DynLisp.Arithmetic

/-- The operands of an operation after they were made alike. -/
inductive Operands where
  | integers (ns : List Int64)
  | floats (xs : List Float)

/-- The integer that a value is. -/
def int? : Value → Option Int64
  | .int n => some n
  | _ => none

/-- Makes all operands integers, or all floats if one is. The first that is no number is refused. -/
def operands (op : Primitive) (args : List Value) : Except EvalError Operands :=
  match args.find? fun v => !v.isNumber with
  | some v => .error (.typeMismatch (.notNumericOperand op.name v))
  | none =>
    if args.any Value.isFloat then .ok (.floats (args.filterMap Value.toFloat?))
    else .ok (.integers (args.filterMap int?))

/-- An exact result, if it fits. -/
def checked (op : Primitive) (n : Int) : Except EvalError Int64 :=
  match Number.int64? n with
  | some m => .ok m
  | none => .error (.overflow (.integer op.name))

/-- Combines integers from the left, each partial result checked. -/
def foldChecked (op : Primitive) (f : Int → Int → Int) (start : Int64) (ns : List Int64) :
    Except EvalError Int64 :=
  ns.foldlM (fun acc n => checked op (f acc.toInt n.toInt)) start

/-- The sum; of no operands 0. Floats are added to -0.0, which changes none of them. -/
def add (args : List Value) : Except EvalError Value := do
  match ← operands .add args with
  | .integers ns => return .int (← foldChecked .add (· + ·) 0 ns)
  | .floats xs => return .float (xs.foldl (· + ·) (-0.0))

/-- The product; of no operands 1. -/
def mul (args : List Value) : Except EvalError Value := do
  match ← operands .mul args with
  | .integers ns => return .int (← foldChecked .mul (· * ·) 1 ns)
  | .floats xs => return .float (xs.foldl (· * ·) 1.0)

/-- The first operand less all others; a lone operand is negated. -/
def sub (args : List Value) : Except EvalError Value := do
  match ← operands .sub args with
  | .integers [] | .floats [] => throw (.operandCount (.atLeast 1) 0)
  | .integers [n] => return .int (← checked .sub (-n.toInt))
  | .integers (n :: ns) => return .int (← foldChecked .sub (· - ·) n ns)
  | .floats [x] => return .float (-x)
  | .floats (x :: xs) => return .float (xs.foldl (· - ·) x)

/-- The operands that divide: all but the first, or the only one. -/
def divisors : List Value → List Value
  | [v] => [v]
  | args => args.tail

/-- The first operand divided by all others, integers towards zero; a lone operand divides 1. -/
def div (args : List Value) : Except EvalError Value := do
  let sorted ← operands .div args
  if (divisors args).contains (.int 0) then throw .divideByZero
  match sorted with
  | .integers [] | .floats [] => throw (.operandCount (.atLeast 1) 0)
  | .integers [n] => return .int (← checked .div (Int.tdiv 1 n.toInt))
  | .integers (n :: ns) => return .int (← foldChecked .div Int.tdiv n ns)
  | .floats [x] => return .float (1.0 / x)
  | .floats (x :: xs) => return .float (xs.foldl (· / ·) x)

/-- Rounds a number to an integer by `round`, which gives the exact integer next to a finite float.
A float that has none in range is integral or not finite, so it is its own rounded value. -/
def roundBy (op : Primitive) (round : Binary64 → Option Int) : List Value → Except EvalError Value
  | [.int n] => .ok (.int n)
  | [.float x] =>
    match (round (.ofFloat x)).bind Number.int64? with
    | some n => .ok (.int n)
    | none => .error (.overflow (.float op.name x))
  | [v] => .error (.typeMismatch (.notRoundable op.name v))
  | args => .error (.operandCount (.exactly 1) args.length)

end DynLisp.Arithmetic
