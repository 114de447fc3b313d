import DynLisp.Eval.Basic
import DynLisp.Value.Access

/-!
# Procedures

A procedure is made from formals that are checked (`makeProcedure`), and applied by evaluating its
operands where the call stands, binding the results in a new frame, and evaluating its body there
(`applyProcedure`). Nothing is captured: free names in the body are looked up where it runs.
-/

namespace DynLisp

open EvalM

/-- Checks that formals are distinct symbols, none of them among those seen before. -/
def checkDistinct (seen : List String) : List Value → Except EvalError Unit
  | [] => .ok ()
  | .symbol name :: formals =>
    if seen.contains name then .error (.duplicate name)
    else checkDistinct (name :: seen) formals
  | formal :: _ => .error (.typeMismatch (.parameter formal))

/-- Checks that formals are one symbol, for all operands, or a proper list of distinct ones. -/
def checkFormals : Value → Except EvalError Unit
  | .symbol _ => .ok ()
  | formals => do
    if !formals.isList then throw (.typeMismatch (.formals formals))
    checkDistinct [] (← formals.toList)

/-- The procedure with these formals and this body, if the formals are in order. -/
def makeProcedure (formals : Value) (body : List Value) : Except EvalError Value := do
  checkFormals formals
  return .procedure formals (.ofList body)

/-- Evaluates the operands of a call from left to right. -/
def evalOperands (ev : Evaluator) (operands : Value) : EvalM (List Value) := do
  (← operands.toList).mapM ev

/-- Evaluates the operands of a procedure call, if there are as many as formals. -/
def evalArguments (ev : Evaluator) (formals operands : Value) : EvalM (List Value) :=
  match formals with
  | .symbol _ => evalOperands ev operands
  | _ => do
    let expected ← formals.length
    let got ← operands.length
    if expected ≠ got then throw (.operandCount (.exactly expected) got)
    evalOperands ev operands

/-- Binds formals to values one by one, as long as there are both. -/
def bindEach : List Value → List Value → EvalM Unit
  | .symbol name :: formals, v :: vs => do
    define name v
    bindEach formals vs
  | formal :: _, _ :: _ => throw (.typeMismatch (.parameter formal))
  | _, _ => return

/-- Binds the formals of a procedure; a single symbol is bound to the list of all values. -/
def bindArguments (formals : Value) (values : List Value) : EvalM Unit :=
  match formals with
  | .symbol name => define name (.ofList values)
  | _ => bindEach formals.items values

/-- Evaluates the expressions of a body in order; its value is that of the last one. -/
def evalBody (ev : Evaluator) : List Value → EvalM Value
  | [] => return .nil
  | [e] => ev e
  | e :: es => do
    let _ ← ev e
    evalBody ev es

/-- Applies a procedure to unevaluated operands. -/
def applyProcedure (ev : Evaluator) (formals body operands : Value) : EvalM Value := do
  let values ← evalArguments ev formals operands
  inCall do
    bindArguments formals values
    evalBody ev body.items

end DynLisp
