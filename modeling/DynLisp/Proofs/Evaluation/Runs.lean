import DynLisp.Eval.Call

/-!
# Running evaluations

What the run of a sequence tells about its parts, for any state and errors (`Stateful`):

* `run_bind`: a sequence stops at its first error, and keeps what was done until then;
* `bind_eq_some`: a finished sequence, taken apart;
* `bind_of_ok`, `bind_of_error`: a sequence whose first part has finished.

And what each operation of `EvalM` does to an interpreter.
-/

namespace DynLisp

namespace Stateful

variable {ε σ α β : Type}

theorem run_bind (x : Stateful ε σ α) (f : α → Stateful ε σ β) (s : σ) :
    (x >>= f) s = (x s).bind fun (r, t) =>
      match r with
      | .ok a => f a t
      | .error e => some (.error e, t) := by
  show (x s).bind _ = _
  rcases x s with _ | ⟨_ | _, t⟩ <;> rfl

/-- A finished sequence either stopped at an error of its first part, or ended with its second. -/
theorem bind_eq_some {x : Stateful ε σ α} {f : α → Stateful ε σ β} {s u : σ} {r : Except ε β}
    (h : (x >>= f) s = some (r, u)) :
    (∃ e, x s = some (.error e, u) ∧ r = .error e) ∨
      ∃ a t, x s = some (.ok a, t) ∧ f a t = some (r, u) := by
  rw [run_bind] at h
  rcases hx : x s with _ | ⟨e | a, t⟩
  · rw [hx] at h; cases h
  · rw [hx] at h; cases h
    exact .inl ⟨e, rfl, rfl⟩
  · rw [hx] at h
    exact .inr ⟨a, t, rfl, h⟩

theorem bind_of_ok {x : Stateful ε σ α} {f : α → Stateful ε σ β} {s t : σ} {a : α}
    (h : x s = some (.ok a, t)) : (x >>= f) s = f a t := by
  rw [run_bind, h]; rfl

theorem bind_of_error {x : Stateful ε σ α} {f : α → Stateful ε σ β} {s t : σ} {e : ε}
    (h : x s = some (.error e, t)) : (x >>= f) s = some (.error e, t) := by
  rw [run_bind, h]; rfl

/-- A computation of which the result is known ends in some state. -/
theorem exists_of_result {o : Option (Except ε α × σ)} {r : Except ε α}
    (h : o.map Prod.fst = some r) : ∃ t, o = some (r, t) := by
  obtain ⟨⟨r', t⟩, rfl, rfl⟩ := Option.map_eq_some_iff.1 h
  exact ⟨t, rfl⟩

end Stateful

namespace EvalM

variable {α β : Type}

/-- After a check or a conversion that succeeds. -/
theorem lift_ok_bind (a : α) (f : α → EvalM β) :
    (liftM (Except.ok a : Except EvalError α) >>= f) = f a := rfl

theorem run_lookup (name : String) (s : Interp) : lookup name s = some (s.env.lookup name, s) := by
  show (liftM (s.env.lookup name) : EvalM Value) s = _
  cases s.env.lookup name <;> rfl

theorem run_define (name : String) (v : Value) (s : Interp) :
    define name v s = some (match s.env.define name v with
      | .ok env => (.ok (), { s with env })
      | .error e => (.error e, s)) := by
  show ((liftM (s.env.define name v) : EvalM Environment) >>= _) s = _
  cases s.env.define name v <;> rfl

/-- Writing changes the sink alone, and what comes of it depends on nothing else. -/
theorem run_writeLine (pieces : List String) (s : Interp) :
    writeLine pieces s = some ((s.sink.writeLine pieces).1.mapError .output,
      { s with sink := (s.sink.writeLine pieces).2 }) := by
  unfold writeLine
  rw [Stateful.bind_of_ok (a := (s.sink.writeLine pieces).1)
    (t := { s with sink := (s.sink.writeLine pieces).2 }) rfl]
  cases (s.sink.writeLine pieces).1 <;> rfl

theorem run_inCall (body : EvalM α) (s : Interp) :
    inCall body s = (body { s with env := s.env.push }).bind fun (r, t) =>
      some (r, { t with env := t.env.pop }) := rfl

end EvalM

end DynLisp
