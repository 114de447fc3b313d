import Mathlib.Control.Monad.Basic
import DynLisp.Proofs.Evaluation.Endless
import DynLisp.Proofs.Evaluation.Frames

/-!
# What depends on the depth limit

A depth limit shows in nothing but the error that it was exceeded. An evaluation that ends with
anything else ends so in more levels (`extends_eval`), and an evaluation knows of its depth and the
limit only how many levels are left (`outcome_eval`), but for the limit that the error tells
(`EvalError.withoutLimit`). Both are relations that all operations of evaluation keep
(`congruence_extendsUnlessTooDeep`, `congruence_sameOutcome`), so none of them needs the induction
over the evaluator again.
-/

namespace DynLisp

/-- The error without the depth limit that it tells. -/
def EvalError.withoutLimit : EvalError → EvalError
  | depthLimit _ => depthLimit 0
  | e => e

/-- The outcome is not that the depth limit was exceeded. -/
def NotTooDeep {α : Type} (r : Except EvalError α) : Prop :=
  ∀ maxDepth, r ≠ .error (.depthLimit maxDepth)

/-! ## More levels -/

/-- The second evaluation ends as the first does, unless that exceeded the depth limit. -/
def ExtendsUnlessTooDeep {α : Type} (x y : EvalM α) : Prop :=
  ∀ s r t, x s = some (r, t) → NotTooDeep r → y s = some (r, t)

theorem ExtendsUnlessTooDeep.bind {α β : Type} {x y : EvalM α} {f g : α → EvalM β}
    (hxy : ExtendsUnlessTooDeep x y) (hfg : ∀ a, ExtendsUnlessTooDeep (f a) (g a)) :
    ExtendsUnlessTooDeep (x >>= f) (y >>= g) := by
  intro s r u h hr
  rcases Stateful.bind_eq_some h with ⟨e, he, rfl⟩ | ⟨a, t, ha, hu⟩
  · have hy := hxy s _ u he fun n hn => hr n (by cases hn; rfl)
    exact Stateful.bind_of_error hy
  · have hy := hxy s _ t ha fun n hn => nomatch hn
    rw [Stateful.bind_of_ok hy]
    exact hfg a t r u hu hr

theorem ExtendsUnlessTooDeep.inCall {α : Type} {x y : EvalM α} (hxy : ExtendsUnlessTooDeep x y) :
    ExtendsUnlessTooDeep (EvalM.inCall x) (EvalM.inCall y) := by
  intro s r u h hr
  obtain ⟨t, ht, rfl⟩ := EvalM.inCall_ok h
  rw [EvalM.run_inCall, hxy _ r t ht hr]
  rfl

theorem congruence_extendsUnlessTooDeep : Congruence fun _ x y => ExtendsUnlessTooDeep x y where
  pure _ := fun _ _ _ h _ => h
  throw _ := fun _ _ _ h _ => h
  bind := ExtendsUnlessTooDeep.bind
  lookup _ := fun _ _ _ h _ => h
  define _ _ := fun _ _ _ h _ => h
  writeLine _ := fun _ _ _ h _ => h
  inCall := ExtendsUnlessTooDeep.inCall
  unfinished _ := fun _ _ _ h _ => nomatch h

/-- An evaluation ends in more levels as it did, unless it needed more than there were. -/
theorem extends_eval {limits limits' : Limits} (hchain : limits.maxChain ≤ limits'.maxChain)
    (levels k : Nat) (e : Value) :
    ExtendsUnlessTooDeep (eval limits levels e) (eval limits' (levels + k) e) :=
  congruence_extendsUnlessTooDeep.eval hchain
    (fun _ _ r _ h hr => by cases h; exact (hr limits.maxDepth rfl).elim) levels e

/-! ## Levels left -/

/-- What an evaluation ends with and the state after it, without the depth limit that an error may
tell. -/
def outcome {α : Type} (x : EvalM α) (s : Interp) : Option (Except EvalError α × Interp) :=
  (x s).map fun (r, t) => (r.mapError EvalError.withoutLimit, t)

/-- The limit that an error tells has no influence on what follows. -/
theorem outcome_bind {α β : Type} (x : EvalM α) (f : α → EvalM β) (s : Interp) :
    outcome (x >>= f) s = (outcome x s).bind fun (r, t) =>
      match r with
      | .ok a => outcome (f a) t
      | .error e => some (.error e, t) := by
  unfold outcome
  rw [Stateful.run_bind]
  rcases x s with _ | ⟨_ | _, t⟩ <;> rfl

theorem outcome_inCall {α : Type} (x : EvalM α) (s : Interp) :
    outcome (EvalM.inCall x) s =
      (outcome x { s with env := s.env.push }).map fun (r, t) =>
        (r, { t with env := t.env.pop }) := by
  unfold outcome
  rw [EvalM.run_inCall]
  cases x { s with env := s.env.push } <;> rfl

/-- The second evaluation has the outcome of the first, if that has one. -/
def SameOutcome {α : Type} (x y : EvalM α) : Prop :=
  ∀ s p, outcome x s = some p → outcome y s = some p

theorem SameOutcome.bind {α β : Type} {x y : EvalM α} {f g : α → EvalM β} (hxy : SameOutcome x y)
    (hfg : ∀ a, SameOutcome (f a) (g a)) : SameOutcome (x >>= f) (y >>= g) := by
  intro s p h
  rw [outcome_bind] at h ⊢
  obtain ⟨⟨r, t⟩, hx, h⟩ := Option.bind_eq_some_iff.1 h
  rw [hxy s _ hx]
  cases r with
  | ok a => exact hfg a t p h
  | error e => exact h

theorem SameOutcome.inCall {α : Type} {x y : EvalM α} (hxy : SameOutcome x y) :
    SameOutcome (EvalM.inCall x) (EvalM.inCall y) := by
  intro s p h
  rw [outcome_inCall] at h ⊢
  obtain ⟨q, hx, rfl⟩ := Option.map_eq_some_iff.1 h
  rw [hxy _ q hx]
  rfl

theorem congruence_sameOutcome : Congruence fun _ x y => SameOutcome x y where
  pure _ := fun _ _ h => h
  throw _ := fun _ _ h => h
  bind := SameOutcome.bind
  lookup _ := fun _ _ h => h
  define _ _ := fun _ _ h => h
  writeLine _ := fun _ _ h => h
  inCall := SameOutcome.inCall
  unfinished _ := fun _ _ h => nomatch h

/-- Within as many levels, evaluations under different limits have the same outcome. -/
theorem outcome_eval {limits limits' : Limits} (hchain : limits.maxChain = limits'.maxChain)
    (levels : Nat) (e : Value) (s : Interp) :
    outcome (eval limits levels e) s = outcome (eval limits' levels e) s := by
  have hsame : ∀ {l l' : Limits}, l.maxChain = l'.maxChain →
      SameOutcome (eval l levels e) (eval l' levels e) := fun h =>
    congruence_sameOutcome.eval (Nat.le_of_eq h) (k := 0) (fun _ _ _ h => h) levels e
  refine Option.ext fun p => ?_
  exact ⟨hsame hchain s p, hsame hchain.symm s p⟩

/-! ## The depth limit -/

/-- An evaluation that ends with anything but the error that the depth limit was exceeded ends with
the same and in the same state, with the same output, under any higher limit. And all evaluations
depend only on how far the limit is above the depth they start at: where both are raised alike, the
result, the state and the output are the same, but for the limit that such an error tells. -/
theorem depth_limit_shows_in_its_error_only (maxChain depth : Nat) (e : Value) (s : Interp) :
    (∀ maxDepth maxDepth' r t, maxDepth ≤ maxDepth' →
      ({ maxDepth, maxChain } : Limits).evalAt depth e s = some (r, t) →
      (∀ n, r ≠ .error (.depthLimit n)) →
      ({ maxDepth := maxDepth', maxChain } : Limits).evalAt depth e s = some (r, t)) ∧
    ∀ maxDepth k,
      outcome (({ maxDepth := maxDepth + k, maxChain } : Limits).evalAt (depth + k) e) s =
        outcome (({ maxDepth, maxChain } : Limits).evalAt depth e) s := by
  constructor
  · intro maxDepth maxDepth' r t hle h hr
    obtain ⟨k, hk⟩ : ∃ k, maxDepth' - depth = maxDepth - depth + k :=
      ⟨maxDepth' - depth - (maxDepth - depth), by omega⟩
    show eval _ (maxDepth' - depth) e s = _
    rw [hk]
    exact @extends_eval ⟨maxDepth, maxChain⟩ ⟨maxDepth', maxChain⟩ (Nat.le_refl _) _ k e s r t h hr
  · intro maxDepth k
    show outcome (eval _ (maxDepth + k - (depth + k)) e) s = _
    rw [Nat.add_sub_add_right]
    exact @outcome_eval ⟨maxDepth + k, maxChain⟩ ⟨maxDepth, maxChain⟩ rfl _ e s

/-- Three levels are enough for a call that fails in its body. -/
theorem failingCall_under_higher_limit :
    ∃ r t, ({ maxDepth := 3 } : Limits).evalAt 0 failingCall callerInFrame = some (r, t) ∧
      (∀ n, r ≠ .error (.depthLimit n)) ∧
      ({} : Limits).evalAt 0 failingCall callerInFrame = some (r, t) := by
  have hends : (({ maxDepth := 3 } : Limits).evalAt 0 failingCall callerInFrame).map (·.1) =
      some (.error (.typeMismatch (.notPair "car" .nil))) := by
    decide +kernel
  obtain ⟨⟨r, t⟩, h, hr⟩ := Option.map_eq_some_iff.1 hends
  replace hr : r = .error (.typeMismatch (.notPair "car" .nil)) := hr
  have hne : ∀ n, r ≠ .error (.depthLimit n) := by
    rw [hr]
    exact fun n hn => nomatch hn
  exact ⟨r, t, h, hne, (depth_limit_shows_in_its_error_only 10000 0 failingCall callerInFrame).1
    3 10000 r t (by decide) h hne⟩

end DynLisp
