import DynLisp.Builtin.Primitive
import DynLisp.Eval.SpecialForm

/-!
# Evaluation

`eval` evaluates an expression within a number of levels: each expression inside another one is
evaluated one level further down, and at level zero evaluation fails. At one level, only `apply`
starts another application; how often it may do so in a row is bounded separately.
-/

namespace DynLisp

/-- Applies a builtin, after its operands were counted. -/
def applyBuiltin (ev : Evaluator) (apply : Value → Value → EvalM Value) (b : Builtin)
    (operands : Value) : EvalM Value := do
  let count ← operands.length
  if !b.arity.accepts count then
    throw (.arity b.arity count (some (Value.pair (.symbol b.name) operands).display))
  match b with
  | .primitive op => op.run (← evalOperands ev operands)
  | .special form => form.run ev apply operands

/-- Applies what the head of a call evaluated to. The symbol of a builtin stands for the builtin.
The first argument bounds the length of a chain of applications. -/
def applyTo (ev : Evaluator) : Nat → Value → Value → EvalM Value
  | 0, _, _ => .unfinished
  | chain + 1, callee, operands =>
    match callee with
    | .symbol name =>
      match Builtin.find? name with
      | some b => applyBuiltin ev (applyTo ev chain) b operands
      | none => throw (.notApplicable (.notProcedureName name))
    | .procedure formals body => applyProcedure ev formals body operands
    | .nil => throw .emptyEvaluation
    | v => throw (.notApplicable (.notFunction v))

/-- Evaluates an expression, those inside it by `ev`. -/
def evalExpr (chain : Nat) (ev : Evaluator) : Value → EvalM Value
  | .nil => throw .emptyEvaluation
  | .symbol name => EvalM.lookup name
  | .pair head operands => do
    let callee ← ev head
    applyTo ev chain callee operands
  | v => return v

/-- Evaluates an expression within a number of levels. -/
def eval (limits : Limits) : Nat → Evaluator
  | 0, _ => throw (.depthLimit limits.maxDepth)
  | levels + 1, e => evalExpr limits.maxChain (eval limits levels) e

namespace Limits

/-- Evaluation of an expression that stands at the given depth. -/
def evalAt (limits : Limits) (depth : Nat) : Evaluator :=
  eval limits (limits.maxDepth - depth)

/-- Application of a value to unevaluated operands in a call at the given depth. -/
def applyAt (limits : Limits) (depth : Nat) (callee operands : Value) : EvalM Value :=
  applyTo (limits.evalAt (depth + 1)) limits.maxChain callee operands

/-- The implementation of a builtin, without the operands being counted first. A primitive is given
the operands as they stand. -/
def runBuiltin (limits : Limits) (depth : Nat) (b : Builtin) (operands : Value) : EvalM Value :=
  match b with
  | .primitive op => do op.run (← operands.toList)
  | .special form => form.run (limits.evalAt (depth + 1)) (limits.applyAt depth) operands

end Limits

end DynLisp
