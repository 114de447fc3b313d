import DynLisp.Proofs.Evaluation.Congruence
import DynLisp.Proofs.Scope.Growth

/-!
# Frames around an evaluation

Whatever an evaluation ends with, it leaves the stack of frames as it found it, but for names that
are new in the innermost frame (`evaluation_grows_innermost_frame`). No operation does more than
that to the environment (`congruence_keepsFrames`): a definition binds one new name where it stands,
and what happens in the frame of a call is gone with that frame.
-/

namespace DynLisp

/-- If the evaluation ends, at most the innermost frame has changed, and that has grown. -/
def KeepsFrames {α : Type} (x : EvalM α) : Prop :=
  ∀ s r t, x s = some (r, t) → s.env.GrownInside t.env

theorem KeepsFrames.bind {α β : Type} {x : EvalM α} {f : α → EvalM β} (hx : KeepsFrames x)
    (hf : ∀ a, KeepsFrames (f a)) : KeepsFrames (x >>= f) := by
  intro s r u h
  rcases Stateful.bind_eq_some h with ⟨e, he, -⟩ | ⟨a, t, ha, hu⟩
  · exact hx s _ u he
  · exact (hx s _ t ha).trans (hf a t r u hu)

theorem KeepsFrames.define (name : String) (v : Value) : KeepsFrames (EvalM.define name v) := by
  intro s r t h
  rw [EvalM.run_define] at h
  cases hd : s.env.define name v with
  | ok env =>
    rw [hd] at h
    cases h
    exact .define hd
  | error e =>
    rw [hd] at h
    cases h
    exact .refl _

theorem KeepsFrames.inCall {α : Type} {x : EvalM α} (hx : KeepsFrames x) :
    KeepsFrames (EvalM.inCall x) := by
  intro s r t h
  obtain ⟨t', hbody, rfl⟩ := EvalM.inCall_ok h
  have hgrown := hx _ r t' hbody
  rw [hgrown.pop_of_push]
  exact .refl _

/-- The operations of evaluation keep the frames, so all of evaluation does. -/
theorem congruence_keepsFrames : Congruence fun _ x _ => KeepsFrames x where
  pure a := fun s r t h => by cases h; exact .refl _
  throw e := fun s r t h => by cases h; exact .refl _
  bind := KeepsFrames.bind
  lookup name := fun s r t h => by
    rw [EvalM.run_lookup] at h
    cases h
    exact .refl _
  define := KeepsFrames.define
  writeLine pieces := fun s r t h => by
    rw [EvalM.run_writeLine] at h
    cases h
    exact .refl _
  inCall := KeepsFrames.inCall
  unfinished _ := fun s r t h => nomatch h

theorem keepsFrames_eval (limits : Limits) (levels : Nat) (e : Value) :
    KeepsFrames (eval limits levels e) :=
  congruence_keepsFrames.eval_self limits levels e

theorem keepsFrames_applyAt (limits : Limits) (depth : Nat) (callee operands : Value) :
    KeepsFrames (limits.applyAt depth callee operands) :=
  congruence_keepsFrames.applyAt_self limits depth callee operands

/-- An evaluation or an application, from any state and at any depth, whether it ends with a value
or an error: there are as many frames as before, all but the innermost are the same, and that one
was extended by names that it did not bind, so that those that it did bind keep their values. -/
theorem evaluation_grows_innermost_frame (limits : Limits) (depth : Nat) {s t : Interp}
    {r : Except EvalError Value}
    (h : (∃ e, limits.evalAt depth e s = some (r, t)) ∨
      ∃ callee operands, limits.applyAt depth callee operands s = some (r, t)) :
    t.env.depth = s.env.depth ∧ t.env.frames.tail = s.env.frames.tail ∧
      s.env.current.Grown t.env.current ∧
      ∀ name v, s.env.current.get? name = some v → t.env.current.get? name = some v := by
  have hgrown : s.env.GrownInside t.env := by
    rcases h with ⟨e, h⟩ | ⟨callee, operands, h⟩
    · exact keepsFrames_eval limits _ e s r t h
    · exact keepsFrames_applyAt limits depth callee operands s r t h
  exact ⟨hgrown.depth, hgrown.outer, hgrown.innermost, fun name v hv => hgrown.innermost.get? hv⟩

/-- `((lambda (x) (define y 1) (car x)) (define z 2))`: the operand defines in the frame of the
caller, the body in its own, and then it fails. -/
def failingCall : Value :=
  .ofList [
    .ofList [.symbol "lambda", .ofList [.symbol "x"],
      .ofList [.symbol "define", .symbol "y", .int 1], .ofList [.symbol "car", .symbol "x"]],
    .ofList [.symbol "define", .symbol "z", .int 2]]

/-- A caller in a frame of its own, over a global frame with the names of three builtins. -/
def callerInFrame : Interp where
  env := {
    global := ⟨.global, ⟨1, #[["lambda", "define", "car"].map fun name => (name, .symbol name)], 3,
      by decide, .inr rfl⟩⟩
    locals := [.call] }

theorem frames_of_failingCall :
    ∃ r t, ({} : Limits).evalAt 0 failingCall callerInFrame = some (r, t) ∧
      t.env.depth = callerInFrame.env.depth ∧
      t.env.frames.tail = callerInFrame.env.frames.tail ∧
      callerInFrame.env.current.Grown t.env.current ∧
      ∀ name v, callerInFrame.env.current.get? name = some v →
        t.env.current.get? name = some v := by
  have hends : (({} : Limits).evalAt 0 failingCall callerInFrame).isSome = true := by decide +kernel
  obtain ⟨⟨r, t⟩, h⟩ := Option.isSome_iff_exists.1 hends
  exact ⟨r, t, h, evaluation_grows_innermost_frame {} 0 (.inl ⟨failingCall, h⟩)⟩

end DynLisp
