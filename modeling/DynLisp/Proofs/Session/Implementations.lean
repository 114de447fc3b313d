import DynLisp.Proofs.Evaluation.Equivalences
import DynLisp.Proofs.Evaluation.OperandCounts
import DynLisp.Proofs.Session.Procedures

/-!
# Which operands reach the implementations

Evaluation is the same for all implementations of the builtins (`Implementations`) that do what the
standard ones do on operands whose count the arity of the builtin accepts
(`Implementations.Agrees`). What an implementation would do with other operands does not matter,
because it is never given any (`operand_counts_are_checked`): heads of calls may be names of builtins,
other names for them or computed, and `apply` may hand over any list.
-/

namespace DynLisp

open EvalM Value

/-! ## Evaluation with given implementations -/

/-- What builtins do: primitives with evaluated operands; special forms with those of the call as
they stand, and with how to evaluate expressions and how `apply` goes on. -/
structure Implementations where
  primitive : Primitive → List Value → EvalM Value
  special : SpecialForm → Evaluator → (Value → Value → EvalM Value) → Value → EvalM Value

namespace Implementations

/-- The implementations that are run. -/
def standard : Implementations where
  primitive op args := liftM (op.run args)
  special form := form.run

/-- The standard implementations, but anything at all on operands that are not a proper list, or not
of a count that the builtin accepts. -/
def orElse (otherwise : Builtin → Value → EvalM Value) : Implementations where
  primitive op args :=
    if op.arity.accepts args.length then standard.primitive op args
    else otherwise (.primitive op) (.ofList args)
  special form ev apply operands :=
    if operands.isProperList && form.arity.accepts operands.items.length then
      standard.special form ev apply operands
    else otherwise (.special form) operands

variable (impl : Implementations)

/-- `DynLisp.applyBuiltin` with the given implementations. -/
def applyBuiltin (ev : Evaluator) (apply : Value → Value → EvalM Value) (b : Builtin)
    (operands : Value) : EvalM Value := do
  let count ← operands.length
  if !b.arity.accepts count then
    throw (.arity b.arity count (some (Value.pair (.symbol b.name) operands).display))
  match b with
  | .primitive op => impl.primitive op (← evalOperands ev operands)
  | .special form => impl.special form ev apply operands

/-- `DynLisp.applyTo` with the given implementations. -/
def applyTo (ev : Evaluator) : Nat → Value → Value → EvalM Value
  | 0, _, _ => .unfinished
  | chain + 1, callee, operands =>
    match callee with
    | .symbol name =>
      match Builtin.find? name with
      | some b => impl.applyBuiltin ev (applyTo ev chain) b operands
      | none => throw (.notApplicable (.notProcedureName name))
    | .procedure formals body => applyProcedure ev formals body operands
    | .nil => throw .emptyEvaluation
    | v => throw (.notApplicable (.notFunction v))

/-- `DynLisp.evalExpr` with the given implementations. -/
def evalExpr (chain : Nat) (ev : Evaluator) : Value → EvalM Value
  | .nil => throw .emptyEvaluation
  | .symbol name => EvalM.lookup name
  | .pair head operands => do
    let callee ← ev head
    impl.applyTo ev chain callee operands
  | v => return v

/-- `DynLisp.eval` with the given implementations. -/
def eval (limits : Limits) : Nat → Evaluator
  | 0, _ => throw (.depthLimit limits.maxDepth)
  | levels + 1, e => impl.evalExpr limits.maxChain (eval limits levels) e

/-- `Limits.evalAt` with the given implementations. -/
def evalAt (limits : Limits) (depth : Nat) : Evaluator :=
  impl.eval limits (limits.maxDepth - depth)

/-- `Limits.applyAt` with the given implementations. -/
def applyAt (limits : Limits) (depth : Nat) (callee operands : Value) : EvalM Value :=
  impl.applyTo (impl.evalAt limits (depth + 1)) limits.maxChain callee operands

/-- Serves a request to a session with the given implementations. -/
def serve : Session.Request → SessionM (List Value)
  | .text source => do
    let e ← Session.reading (Reader.parse source)
    return [← Session.evaluate fun limits => impl.evalAt limits 0 e]
  | .allText source => do
    (← Session.reading (Reader.parseAll source)).mapM fun e =>
      Session.evaluate fun limits => impl.evalAt limits 0 e
  | .apply callee args =>
    return [← Session.evaluate fun limits => impl.applyAt limits 0 callee (asOperands args)]
  | .reset => fun s => some (.ok [], s.reset)

/-! ## Implementations that agree with the standard ones -/

/-- The implementations do what the standard ones do on operands that are as many as accepted. -/
structure Agrees : Prop where
  primitive : ∀ (op : Primitive) (args : List Value), op.arity.accepts args.length = true →
    impl.primitive op args = liftM (op.run args)
  special : ∀ (form : SpecialForm) ev apply (args : List Value),
    form.arity.accepts args.length = true →
      impl.special form ev apply (.ofList args) = form.run ev apply (.ofList args)

theorem agrees_orElse (otherwise : Builtin → Value → EvalM Value) :
    (orElse otherwise).Agrees where
  primitive op args h := if_pos h
  special form ev apply args h := by
    refine if_pos ?_
    rw [isProperList_ofList, items_ofList, h]
    rfl

end Implementations

/-- What follows on the evaluation of operands sees only lists with a value for each. -/
theorem mapM_bind_congr {α : Type} {ev : Evaluator} {es : List Value} {f g : List Value → EvalM α}
    (h : ∀ vs, vs.length = es.length → f vs = g vs) : es.mapM ev >>= f = es.mapM ev >>= g := by
  induction es generalizing f g with
  | nil => exact h [] rfl
  | cons e es ih =>
    simp only [List.mapM_cons, bind_assoc, pure_bind]
    refine congrArg (ev e >>= ·) (funext fun v => ih fun vs hvs => h (v :: vs) ?_)
    rw [List.length_cons, List.length_cons, hvs]

namespace Implementations.Agrees

variable {impl : Implementations} (h : impl.Agrees)

include h

theorem applyBuiltin (ev : Evaluator) (apply : Value → Value → EvalM Value) (b : Builtin)
    (operands : Value) :
    impl.applyBuiltin ev apply b operands = DynLisp.applyBuiltin ev apply b operands := by
  rcases toList_cases operands with ⟨e, he⟩ | ⟨es, rfl⟩
  · unfold Implementations.applyBuiltin DynLisp.applyBuiltin
    rw [length_of_toList_error he]
    rfl
  · unfold Implementations.applyBuiltin DynLisp.applyBuiltin
    rw [length_ofList, lift_ok_bind, lift_ok_bind]
    cases haccepts : b.arity.accepts es.length with
    | false => rfl
    | true =>
      cases b with
      | primitive op =>
        rw [evalOperands_ofList]
        exact mapM_bind_congr fun vs hvs => h.primitive op vs (hvs ▸ haccepts)
      | special form => exact h.special form ev apply es haccepts

theorem applyTo (ev : Evaluator) (chain : Nat) :
    impl.applyTo ev chain = DynLisp.applyTo ev chain := by
  induction chain with
  | zero => rfl
  | succ chain ih =>
    funext callee operands
    cases callee with
    | symbol name =>
      simp only [Implementations.applyTo, DynLisp.applyTo, ih]
      cases Builtin.find? name with
      | none => rfl
      | some b => exact h.applyBuiltin ev _ b operands
    | _ => rfl

theorem evalExpr (chain : Nat) (ev : Evaluator) :
    impl.evalExpr chain ev = DynLisp.evalExpr chain ev := by
  funext e
  cases e with
  | pair head operands => simp only [Implementations.evalExpr, DynLisp.evalExpr, h.applyTo]
  | _ => rfl

/-- By induction on the levels, all of evaluation is the same. -/
theorem eval (limits : Limits) (levels : Nat) :
    impl.eval limits levels = DynLisp.eval limits levels := by
  induction levels with
  | zero => rfl
  | succ levels ih =>
    funext e
    simp only [Implementations.eval, DynLisp.eval, ih, h.evalExpr]

theorem evalAt (limits : Limits) : impl.evalAt limits = limits.evalAt :=
  funext fun _ => h.eval limits _

theorem applyAt (limits : Limits) : impl.applyAt limits = limits.applyAt := by
  funext depth callee operands
  simp only [Implementations.applyAt, Limits.applyAt, h.evalAt, h.applyTo]

theorem serve (request : Session.Request) : impl.serve request = request.serve := by
  cases request with
  | text source =>
    simp only [Implementations.serve, h.evalAt, Session.Request.serve, Session.evalText, bind_assoc]
    rfl
  | allText source =>
    simp only [Implementations.serve, h.evalAt]
    rfl
  | apply callee args =>
    simp only [Implementations.serve, h.applyAt]
    rfl
  | reset => rfl

end Implementations.Agrees

/-- Implementations are given operands of an accepted count only: however they are changed for
others, evaluations and applications stay the same in every state, and so do all requests to a
session. And on a count that is accepted no implementation complains about it. A primitive never
does, nor does `/` lack the operand that it divides. Such an error comes out of a special form only
if it came out of what evaluates the expressions inside it, or of what goes on for `apply`,
whatever these are. -/
theorem operand_counts_are_checked (otherwise : Builtin → Value → EvalM Value) :
    (∀ limits depth e, (Implementations.orElse otherwise).evalAt limits depth e =
      limits.evalAt depth e) ∧
    (∀ limits depth callee operands,
      (Implementations.orElse otherwise).applyAt limits depth callee operands =
        limits.applyAt depth callee operands) ∧
    (∀ request, (Implementations.orElse otherwise).serve request = request.serve) ∧
    (∀ (op : Primitive) (args : List Value), op.arity.accepts args.length = true →
      (∀ e, op.run args = .error e → ¬ e.IsOperandCount) ∧
        (op = .div → ∃ first others, args = first :: others ∧
          Arithmetic.divisors args = if others.isEmpty then [first] else others)) ∧
    ∀ (form : SpecialForm) (args : List Value) ev apply e,
      form.arity.accepts args.length = true →
      FailsWith (form.run ev apply (.ofList args)) e → e.IsOperandCount →
        (∃ e', FailsWith (ev e') e) ∨ ∃ callee operands, FailsWith (apply callee operands) e := by
  have h := Implementations.agrees_orElse otherwise
  refine ⟨fun limits depth e => ?_, fun limits depth callee operands => ?_, h.serve,
    fun op args haccepts => ⟨fun e => Primitive.not_isOperandCount_of_run haccepts, ?_⟩,
    fun form args ev apply e => SpecialForm.exists_failsWith_of_run⟩
  · rw [h.evalAt]
  · rw [h.applyAt]
  · rintro rfl
    exact Arithmetic.divisors_of_ne_nil (of_decide_eq_true haccepts)

/-- `apply` with no operand to divide is refused also where an implementation of `/` would not
finish on none; with an operand the complaint of `/` is another one. -/
theorem division_of_nothing_is_refused :
    (∃ s, (Implementations.orElse fun _ _ => .unfinished).serve
        (.apply (.symbol "apply") (.ofList [.symbol "/", quoteForm .nil]))
        { interp := callerOfBuiltins ["/", "quote"] } =
      some (.error (.eval (.arity (.atLeast 1) 0 (some "(/)"))), s)) ∧
    Primitive.div.run [.int 0] = .error .divideByZero ∧
      ¬ EvalError.divideByZero.IsOperandCount ∧
    ∃ s e, SpecialForm.eval.run (({} : Limits).evalAt 1) (({} : Limits).applyAt 0)
        (.ofList [.ofList [.procedure .nil .nil, .int 1]]) {} = some (.error e, s) ∧
      e.IsOperandCount ∧ ((∃ e', FailsWith (({} : Limits).evalAt 1 e') e) ∨
        ∃ callee operands, FailsWith (({} : Limits).applyAt 0 callee operands) e) := by
  obtain ⟨-, -, hserve, hprimitive, hspecial⟩ := operand_counts_are_checked fun _ _ => .unfinished
  refine ⟨?_, rfl, (hprimitive .div [.int 0] rfl).1 _ rfl, ?_⟩
  · rw [hserve]
    have hends : ((Session.Request.apply (.symbol "apply")
        (.ofList [.symbol "/", quoteForm .nil])).serve
          { interp := callerOfBuiltins ["/", "quote"] }).map Prod.fst =
        some (.error (.eval (.arity (.atLeast 1) 0 (some "(/)")))) := by decide +kernel
    exact Stateful.exists_of_result hends
  · have hends : (SpecialForm.eval.run (({} : Limits).evalAt 1) (({} : Limits).applyAt 0)
        (.ofList [.ofList [.procedure .nil .nil, .int 1]]) {}).map Prod.fst =
          some (.error (.operandCount (.exactly 0) 1)) := by decide +kernel
    obtain ⟨s, h⟩ := Stateful.exists_of_result hends
    exact ⟨s, _, h, trivial, hspecial .eval _ _ _ _ rfl ⟨_, s, h⟩ trivial⟩

end DynLisp
