import DynLisp.Builtin.Basic
import DynLisp.Eval.Procedure

/-!
# Special forms

Each form is given its unevaluated operands and decides itself what to evaluate, and when. How the
expressions inside are evaluated is the parameter `ev`; how `apply` goes on with the procedure and
operands it has found is the parameter `apply`.
-/

namespace DynLisp

/-- A list stands for the operands that it holds, any other value for itself alone. -/
def asOperands (v : Value) : Value :=
  if v.isList then v else .ofList [v]

/-- The name and the expression of one binding of `let`. -/
def splitBinding (binding : Value) : Except EvalError (String × Value) :=
  match binding.toList with
  | .ok [.symbol name, e] => .ok (name, e)
  | _ => .error (.typeMismatch (.letBinding binding))

/-- The names and expressions that `let` binds. -/
def splitBindings (bindings : Value) : Except EvalError (List (String × Value)) := do
  if !bindings.isList then throw (.typeMismatch (.letBindings bindings))
  (← bindings.toList).mapM splitBinding

namespace SpecialForm

/-- Evaluates a condition. A number is true unless it is zero; nothing else is a condition. -/
def evalCondition (ev : Evaluator) (e : Value) : EvalM Bool := do
  let v ← ev e
  match v.toFloat? with
  | some x => return x != 0.0
  | none => throw (.typeMismatch (.condition v))

def runQuote : List Value → EvalM Value
  | [e] => return e
  | args => throw (.operandCount (.exactly 1) args.length)

/-- Only the branch that is taken is evaluated; a missing one is `()`. -/
def runBranch (ev : Evaluator) : List Value → EvalM Value
  | [condition, e] => do
    if ← evalCondition ev condition then ev e else return .nil
  | [condition, e₁, e₂] => do
    if ← evalCondition ev condition then ev e₁ else ev e₂
  | args => throw (.operandCount (.between 2 3) args.length)

def runDefine (ev : Evaluator) : List Value → EvalM Value
  | [.symbol name, e] => do
    EvalM.define name (← ev e)
    return .nil
  | [.nil, _] => throw (.typeMismatch .definedEmptyList)
  | [target, _] => throw (.typeMismatch (.definitionTarget target))
  | args => throw (.operandCount (.exactly 2) args.length)

def runPrint (ev : Evaluator) : List Value → EvalM Value
  | [e] => do
    EvalM.writeLine (← ev e).pieces
    return .nil
  | args => throw (.operandCount (.exactly 1) args.length)

/-- The value of the operand is an expression and evaluated once more. -/
def runEval (ev : Evaluator) : List Value → EvalM Value
  | [e] => do ev (← ev e)
  | args => throw (.operandCount (.exactly 1) args.length)

def runLambda : List Value → EvalM Value
  | formals :: e :: es => makeProcedure formals (e :: es)
  | args => throw (.operandCount (.atLeast 2) args.length)

/-- Applies what a name means to a list of operands that is computed. -/
def runApply (ev : Evaluator) (apply : Value → Value → EvalM Value) : List Value → EvalM Value
  | [.symbol name, e] => do
    let callee ← EvalM.lookup name
    let operands ← ev e
    apply callee (asOperands operands)
  | [target, _] => throw (.notApplicable (.notName target))
  | args => throw (.operandCount (.exactly 2) args.length)

/-- Applies the procedure of the bound names to the bound expressions. -/
def runLet (ev : Evaluator) : List Value → EvalM Value
  | bindings :: e :: es => do
    let pairs ← splitBindings bindings
    let formals := .ofList (pairs.map fun (name, _) => .symbol name)
    checkFormals formals
    applyProcedure ev formals (.ofList (e :: es)) (.ofList (pairs.map Prod.snd))
  | args => throw (.operandCount (.atLeast 2) args.length)

/-- Runs a form on its operands, which have to be a proper list. -/
def run (ev : Evaluator) (apply : Value → Value → EvalM Value) (form : SpecialForm)
    (operands : Value) : EvalM Value := do
  let args ← operands.toList
  match form with
  | quote => runQuote args
  | branch => runBranch ev args
  | define => runDefine ev args
  | print => runPrint ev args
  | eval => runEval ev args
  | lambda => runLambda args
  | SpecialForm.apply => runApply ev apply args
  | letIn => runLet ev args

end SpecialForm

end DynLisp
