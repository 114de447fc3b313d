import DynLisp.Eval.Call
import DynLisp.Reader.Datum

/-!
# Sessions

A `Session` is an interpreter with its limits. Text given to it is read in full before any of it is
evaluated. What an evaluation defined or printed stays, also if it fails later.
-/

namespace DynLisp

/-- Why a request to a session fails: its text cannot be read, or its evaluation fails. -/
inductive Failure where
  | read (e : Reader.ReadError)
  | eval (e : EvalError)
deriving DecidableEq

/-- The text of a failure, as it is shown to the user. -/
def Failure.message : Failure → String
  | read e => "ParseError: " ++ e.message
  | eval e => e.message

/-- An interpreter and what its evaluations are bounded by. -/
structure Session where
  limits : Limits := {}
  interp : Interp := {}

/-- A request to a session; like an evaluation it may not finish. -/
abbrev SessionM := Stateful Failure Session

namespace Session

/-- Runs an evaluation on the interpreter of a session. -/
def evaluate {α : Type} (run : Limits → EvalM α) : SessionM α := fun s => do
  let (outcome, interp) ← run s.limits s.interp
  return (outcome.mapError .eval, { s with interp })

/-- The data of a text, or the failure to read it. -/
def reading {α : Type} (outcome : Except Reader.ReadError α) : SessionM α :=
  ExceptT.mk (pure (outcome.mapError .read))

/-- Evaluates an expression. -/
def eval (e : Value) : SessionM Value :=
  evaluate fun limits => limits.evalAt 0 e

/-- Applies a value to argument expressions; a value that is no list is one argument. -/
def apply (callee args : Value) : SessionM Value :=
  evaluate fun limits => limits.applyAt 0 callee (asOperands args)

/-- Runs the implementation of a builtin, as in a call at the given depth. -/
def runBuiltin (depth : Nat) (b : Builtin) (operands : Value) : SessionM Value :=
  evaluate fun limits => limits.runBuiltin depth b operands

/-- Evaluates the one expression that a text holds. -/
def evalText (text : String) : SessionM Value := do
  eval (← reading (Reader.parse text))

/-- Evaluates the expressions that a text holds in order, up to the first that fails. -/
def evalAllText (text : String) : SessionM (List Value) := do
  (← reading (Reader.parseAll text)).mapM eval

/-- Forgets all definitions. -/
def reset (s : Session) : Session :=
  { s with interp := { s.interp with env := .initial } }

/-- The number of frames. -/
def frameCount (s : Session) : Nat :=
  s.interp.env.depth

/-- The visible bindings other than those of the builtins, by name. -/
def bindings (s : Session) : List (String × Value) :=
  s.interp.env.bindings

/-- The number of bytes printed so far. -/
def printedSize (s : Session) : Nat :=
  s.interp.sink.written.size

/-- The text printed since only `start` bytes were. -/
def printedFrom (s : Session) (start : Nat) : String :=
  s.interp.sink.textFrom start

end Session

end DynLisp
