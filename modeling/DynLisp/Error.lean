import DynLisp.Arity
import DynLisp.Value.Display

/-!
# Why an evaluation fails

An `EvalError` records the cause of a failure and the values that caused it; the wording is in
`EvalError.message` alone.
-/

namespace DynLisp

/-- A value of the wrong kind for what was asked of it. -/
inductive TypeMismatch where
  /-- `car` or `cdr`, named by the first field, of a value that is no pair. -/
  | notPair (accessor : String) (v : Value)
  | notList (v : Value)
  | notProperList (v : Value)
  | notNumber (v : Value)
  /-- An operand of `+`, `-`, `*` or `/`. -/
  | notNumericOperand (operation : String) (v : Value)
  /-- The operand of `ceiling` or `floor`. -/
  | notRoundable (operation : String) (v : Value)
  | notOrdered (v : Value)
  | differentKinds (v w : Value)
  | condition (v : Value)
  | parameter (v : Value)
  | formals (v : Value)
  | definedEmptyList
  | definitionTarget (v : Value)
  | letBindings (v : Value)
  | letBinding (v : Value)
deriving DecidableEq

/-- What is wrong with the head of a call. -/
inductive NotApplicable where
  | notProcedureName (name : String)
  | notFunction (v : Value)
  /-- The first operand of `apply` is not a symbol. -/
  | notName (v : Value)
deriving DecidableEq

/-- What does not fit in an integer: a result of exact arithmetic, or a rounded float. -/
inductive Overflow where
  | integer (operation : String)
  | float (operation : String) (x : Float)
deriving DecidableEq

/-- Why output could not be written. -/
inductive OutputFault where
  | full
  | nothingWritten
  | flush
deriving DecidableEq

/-- Why an evaluation failed. An arity error may carry the text of the rejected call. -/
inductive EvalError where
  | typeMismatch (cause : TypeMismatch)
  | arity (expected : Arity) (got : Nat) (call : Option String)
  | unbound (name : String)
  | duplicate (name : String)
  | divideByZero
  | notApplicable (cause : NotApplicable)
  | emptyEvaluation
  | overflow (cause : Overflow)
  | depthLimit (maxDepth : Nat)
  | output (fault : OutputFault)
deriving DecidableEq

namespace TypeMismatch

def message : TypeMismatch → String
  | notPair accessor v => accessor ++ ": not a pair: " ++ v.display
  | notList v => "not a list: " ++ v.display
  | notProperList v => "not a proper list: " ++ v.display
  | notNumber v => "not a number: " ++ v.display
  | notNumericOperand operation v => operation ++ " requires numeric operands, got " ++ v.display
  | notRoundable operation v => operation ++ " requires a number, got " ++ v.display
  | notOrdered v => "< requires numbers or symbols, got " ++ v.display
  | differentKinds v w =>
    "< can only compare values of the same kind, got " ++ v.display ++ " and " ++ w.display
  | condition v => "if condition must be a number, got " ++ v.display
  | parameter v => "lambda parameter must be a symbol: " ++ v.display
  | formals v => "lambda formals must be a symbol or a list of symbols: " ++ v.display
  | definedEmptyList => "cannot define ()"
  | definitionTarget v => "define requires a symbol, got " ++ v.display
  | letBindings v => "let bindings must be a list, got " ++ v.display
  | letBinding v => "let binding must be (name expression), got " ++ v.display

end TypeMismatch

namespace NotApplicable

def message : NotApplicable → String
  | notProcedureName name => "symbol " ++ name ++ " does not name a procedure"
  | notFunction v => "cannot apply a value that is not a function: " ++ v.display
  | notName v => "apply requires a procedure name, got " ++ v.display

end NotApplicable

namespace Overflow

def message : Overflow → String
  | integer operation => "integer overflow in " ++ operation
  | float operation x => operation ++ ": " ++ Number.display x ++ " does not fit in an integer"

end Overflow

namespace OutputFault

def message : OutputFault → String
  | full => "sink full"
  | nothingWritten => "failed to write whole buffer"
  | flush => "flush failed"

end OutputFault

namespace EvalError

/-- The text of an error, as it is shown to the user. -/
def message : EvalError → String
  | typeMismatch cause => "Type error: " ++ cause.message
  | arity expected got call =>
    "ArityError: " ++ (call.map fun c => "expression " ++ c ++ ": ").getD "" ++
      "expected " ++ expected.text ++ " arguments, got " ++ toString got
  | unbound name => "Unbound symbol: " ++ name
  | duplicate name => "Duplicate definition: the symbol \"" ++ name ++ "\" is already defined"
  | divideByZero => "Division by zero"
  | notApplicable cause => "Not applicable: " ++ cause.message
  | emptyEvaluation => "Cannot evaluate an empty list"
  | overflow cause => "Arithmetic overflow: " ++ cause.message
  | depthLimit maxDepth => "Evaluation depth limit exceeded (max: " ++ toString maxDepth ++ ")"
  | output fault => "Output error: " ++ fault.message

/-- The arity error of a call without its text. -/
def operandCount (expected : Arity) (got : Nat) : EvalError :=
  arity expected got none

end EvalError

namespace Arity

/-- Fails with an arity error unless the count is accepted. -/
def check (expected : Arity) (got : Nat) : Except EvalError Unit :=
  if expected.accepts got then .ok () else .error (.operandCount expected got)

end Arity

end DynLisp
