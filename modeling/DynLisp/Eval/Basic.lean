import DynLisp.Scope.Environment
import DynLisp.Sink

/-!
# Evaluations

An evaluation (`EvalM`) works on an environment and a sink, and ends with a result or an error; the
definitions made and the text printed before an error stay. It has no result at all if it does not
finish. The operations here are the only ones by which an evaluation touches its state. The main
fact is `inCall_ok`: a call leaves the stack of frames as deep as its body found it.
-/

namespace DynLisp

/-- What evaluation is bounded by. -/
structure Limits where
  /-- How deep evaluations may be nested. -/
  maxDepth : Nat := 10000
  /-- How often in a row `apply` may hand over to another application at one depth. Such a chain
  is not nested evaluation, so `maxDepth` does not bound it; a longer one counts as unfinished. -/
  maxChain : Nat := 10000

/-- The state of an interpreter. -/
structure Interp where
  env : Environment := .initial
  sink : Sink := {}

/-- Computations from a state to a result or error and the state after it, or to nothing if they do
not finish. What was done to the state before an error stays. -/
abbrev Stateful (ε σ : Type) := ExceptT ε (StateT σ Option)

/-- An evaluation works on an interpreter. -/
abbrev EvalM := Stateful EvalError Interp

/-- How the expressions inside a form are evaluated. -/
abbrev Evaluator := Value → EvalM Value

namespace EvalM

/-- The value of a name in the current environment. -/
def lookup (name : String) : EvalM Value := do
  (← get).env.lookup name

/-- Binds a name in the innermost frame. -/
def define (name : String) (v : Value) : EvalM Unit := do
  let env ← (← get).env.define name v
  modify ({ · with env })

/-- Writes a line to the sink, which keeps what it took even if the write fails. -/
def writeLine (pieces : List String) : EvalM Unit := do
  let outcome ← modifyGet fun s =>
    let (outcome, sink) := s.sink.writeLine pieces
    (outcome, { s with sink })
  match outcome with
  | .ok () => return
  | .error fault => throw (.output fault)

/-- Does not finish. -/
def unfinished {α : Type} : EvalM α := fun _ => none

/-- Runs a body in a frame of its own, which is left again whatever the body's outcome. -/
def inCall {α : Type} (body : EvalM α) : EvalM α := fun s => do
  let (outcome, s') ← body { s with env := s.env.push }
  return (outcome, { s' with env := s'.env.pop })

/-! ## Frames around a call -/

/-- What a call ends with is what its body ended with, less the frame that was entered. -/
theorem inCall_ok {α : Type} {body : EvalM α} {s t : Interp} {r : Except EvalError α}
    (h : inCall body s = some (r, t)) :
    ∃ t', body { s with env := s.env.push } = some (r, t') ∧ t = { t' with env := t'.env.pop } := by
  unfold inCall at h
  cases hb : body { s with env := s.env.push } with
  | none => rw [hb] at h; cases h
  | some p =>
    rw [hb] at h
    cases h
    exact ⟨p.2, rfl, rfl⟩

end EvalM

end DynLisp
