import DynLisp.Builtin.Arithmetic
import DynLisp.Builtin.Order

/-!
# What the primitive operations compute

`Primitive.run` is given evaluated operands. Calls check the operand count before; an operation
that is run on another count than it takes answers with an arity error of its own.
-/

namespace DynLisp.Primitive

/-- Runs an operation of one operand. -/
def unary (f : Value → Except EvalError Value) : List Value → Except EvalError Value
  | [v] => f v
  | args => .error (.operandCount (.exactly 1) args.length)

/-- Runs an operation of two operands. -/
def binary (f : Value → Value → Except EvalError Value) : List Value → Except EvalError Value
  | [v, w] => f v w
  | args => .error (.operandCount (.exactly 2) args.length)

/-- Answers a question about one operand. -/
def predicate (p : Value → Bool) : List Value → Except EvalError Value :=
  unary fun v => .ok (.ofBool (p v))

/-- Only a number that is zero is false. -/
def isFalse : Value → Bool
  | .int n => n == 0
  | .float x => x == 0.0
  | _ => false

/-- The result of an operation on evaluated operands. -/
def run : Primitive → List Value → Except EvalError Value
  | add => Arithmetic.add
  | sub => Arithmetic.sub
  | mul => Arithmetic.mul
  | div => Arithmetic.div
  | ceiling => Arithmetic.roundBy .ceiling Binary64.ceil?
  | floor => Arithmetic.roundBy .floor Binary64.floor?
  | cons => binary fun v w => .ok (.pair v w)
  | car => unary Value.car
  | cdr => unary Value.cdr
  | nullp => predicate Value.isNil
  | symbolp => predicate Value.isSymbol
  | intp => predicate Value.isInt
  | doublep => predicate Value.isFloat
  | listp => predicate Value.isList
  | procedurep => predicate Value.isProcedure
  | less => Order.less
  | not => predicate isFalse

end DynLisp.Primitive
