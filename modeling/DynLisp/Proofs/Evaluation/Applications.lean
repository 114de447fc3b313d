import DynLisp.Proofs.Evaluation.Runs

/-!
# What an application does

An application either fails at once, whatever the evaluations inside it would do, or its operands
are a proper list of as many as the callee takes, and it is one of three things
(`applyTo_cases`): a primitive operation or a procedure, which evaluates its operands in order
(`applyTo_primitive`, `applyTo_procedure`), or a special form (`applyTo_special`).
-/

namespace DynLisp

open EvalM Value

theorem ofList_ne_symbol (vs : List Value) (name : String) : ofList vs ≠ .symbol name := by
  cases vs <;> nofun

theorem length_ofList (es : List Value) : (ofList es).length = .ok es.length := by
  unfold Value.length
  rw [toList_ofList]
  rfl

theorem length_of_toList_error {v : Value} {e : EvalError} (h : v.toList = .error e) :
    v.length = .error e := by
  unfold Value.length
  rw [h]
  rfl

/-- Operands are the list of their elements, or asking for these fails. -/
theorem toList_cases (operands : Value) :
    (∃ e, operands.toList = .error e) ∨ ∃ es, operands = ofList es := by
  cases h : operands.toList with
  | error e => exact .inl ⟨e, rfl⟩
  | ok es => exact .inr ⟨es, toList_eq_ok_iff.1 h⟩

/-! ## Operands of a procedure -/

/-- Whether a procedure with these formals takes this many operands. -/
def Takes : Value → Nat → Prop
  | .symbol _, _ => True
  | formals, count => formals.length = .ok count

theorem takes_iff {formals : Value} (h : ∀ name, formals ≠ .symbol name) (count : Nat) :
    Takes formals count ↔ formals.length = .ok count := by
  cases formals with
  | symbol name => exact (h name rfl).elim
  | _ => exact .rfl

theorem takes_ofList (formals : List Value) : Takes (ofList formals) formals.length :=
  (takes_iff (ofList_ne_symbol formals) _).2 (length_ofList formals)

theorem evalOperands_ofList (ev : Evaluator) (es : List Value) :
    evalOperands ev (ofList es) = es.mapM ev := by
  unfold evalOperands
  rw [toList_ofList]
  rfl

theorem evalArguments_eq {formals : Value} (h : ∀ name, formals ≠ .symbol name) (ev : Evaluator)
    (operands : Value) :
    evalArguments ev formals operands = (liftM formals.length >>= fun expected =>
      liftM operands.length >>= fun got =>
        if expected ≠ got then throw (.operandCount (.exactly expected) got)
        else evalOperands ev operands) := by
  cases formals with
  | symbol name => exact (h name rfl).elim
  | _ => rfl

theorem evalArguments_ofList {formals : Value} {es : List Value} (h : Takes formals es.length)
    (ev : Evaluator) : evalArguments ev formals (ofList es) = es.mapM ev := by
  by_cases hf : ∃ name, formals = .symbol name
  · obtain ⟨name, rfl⟩ := hf
    exact evalOperands_ofList ev es
  · have hf' : ∀ name, formals ≠ .symbol name := fun name hname => hf ⟨name, hname⟩
    rw [evalArguments_eq hf', (takes_iff hf' _).1 h, length_ofList, evalOperands_ofList]
    show (if es.length ≠ es.length then _ else _) = _
    rw [if_neg (fun hne => hne rfl)]

/-! What refuses operands does so before one of them is evaluated. -/

section Refused

variable {formals operands : Value} {e : EvalError} (ev : Evaluator)

theorem evalOperands_of_toList_error (h : operands.toList = .error e) :
    evalOperands ev operands = throw e := by
  unfold evalOperands
  rw [h]
  rfl

theorem evalArguments_of_formals_error (hf : ∀ name, formals ≠ .symbol name)
    (h : formals.length = .error e) : evalArguments ev formals operands = throw e := by
  rw [evalArguments_eq hf, h]
  rfl

theorem evalArguments_of_toList_error {count : Nat} (htakes : Takes formals count)
    (h : operands.toList = .error e) : evalArguments ev formals operands = throw e := by
  by_cases hf : ∃ name, formals = .symbol name
  · obtain ⟨name, rfl⟩ := hf
    exact evalOperands_of_toList_error ev h
  · have hf' : ∀ name, formals ≠ .symbol name := fun name hname => hf ⟨name, hname⟩
    rw [evalArguments_eq hf', (takes_iff hf' count).1 htakes, length_of_toList_error h]
    rfl

theorem evalArguments_of_ne {count : Nat} {es : List Value} (hf : ∀ name, formals ≠ .symbol name)
    (h : formals.length = .ok count) (hne : count ≠ es.length) :
    evalArguments ev formals (ofList es) = throw (.operandCount (.exactly count) es.length) := by
  rw [evalArguments_eq hf, h, length_ofList]
  show (if count ≠ es.length then _ else _) = _
  rw [if_pos hne]

end Refused

/-- The operands of a procedure call are as many as it takes, or the call fails. -/
theorem evalArguments_cases (formals operands : Value) :
    (∃ e, ∀ ev, evalArguments ev formals operands = throw e) ∨
      ∃ es, operands = ofList es ∧ Takes formals es.length := by
  by_cases hf : ∃ name, formals = .symbol name
  · obtain ⟨name, rfl⟩ := hf
    rcases toList_cases operands with ⟨e, he⟩ | ⟨es, rfl⟩
    · exact .inl ⟨e, fun ev => evalOperands_of_toList_error ev he⟩
    · exact .inr ⟨es, rfl, trivial⟩
  · have hf' : ∀ name, formals ≠ .symbol name := fun name hname => hf ⟨name, hname⟩
    cases hlength : formals.length with
    | error e => exact .inl ⟨e, fun ev => evalArguments_of_formals_error ev hf' hlength⟩
    | ok count =>
      have htakes := (takes_iff hf' count).2 hlength
      rcases toList_cases operands with ⟨e, he⟩ | ⟨es, rfl⟩
      · exact .inl ⟨e, fun ev => evalArguments_of_toList_error ev htakes he⟩
      · by_cases hcount : count = es.length
        · exact .inr ⟨es, rfl, hcount ▸ htakes⟩
        · exact .inl ⟨_, fun ev => evalArguments_of_ne ev hf' hlength hcount⟩

/-! ## Builtins -/

section Builtins

variable (ev : Evaluator) (apply : Value → Value → EvalM Value)

theorem applyBuiltin_primitive {op : Primitive} {es : List Value}
    (h : op.arity.accepts es.length = true) :
    applyBuiltin ev apply (.primitive op) (ofList es) =
      es.mapM ev >>= fun vs => liftM (op.run vs) := by
  unfold applyBuiltin
  rw [length_ofList, evalOperands_ofList]
  show (if (!op.arity.accepts es.length) = true then _ else _) = _
  rw [h]
  rfl

theorem applyBuiltin_special {form : SpecialForm} {es : List Value}
    (h : form.arity.accepts es.length = true) :
    applyBuiltin ev apply (.special form) (ofList es) = form.run ev apply (ofList es) := by
  unfold applyBuiltin
  rw [length_ofList]
  show (if (!form.arity.accepts es.length) = true then _ else _) = _
  rw [h]
  rfl

theorem applyBuiltin_of_toList_error (b : Builtin) {operands : Value} {e : EvalError}
    (h : operands.toList = .error e) : applyBuiltin ev apply b operands = throw e := by
  unfold applyBuiltin
  rw [length_of_toList_error h]
  rfl

theorem applyBuiltin_of_not_accepts {b : Builtin} {es : List Value}
    (h : b.arity.accepts es.length = false) :
    applyBuiltin ev apply b (ofList es) =
      throw (.arity b.arity es.length (some (Value.pair (.symbol b.name) (ofList es)).display)) := by
  unfold applyBuiltin
  rw [length_ofList]
  show (if (!b.arity.accepts es.length) = true then _ else _) = _
  rw [h]
  rfl

/-- The operands of a builtin are as many as it takes, or the call fails. -/
theorem applyBuiltin_cases (b : Builtin) (operands : Value) :
    (∃ e, ∀ ev apply, applyBuiltin ev apply b operands = throw e) ∨
      ∃ es, operands = ofList es ∧ b.arity.accepts es.length = true := by
  rcases toList_cases operands with ⟨e, he⟩ | ⟨es, rfl⟩
  · exact .inl ⟨e, fun ev apply => applyBuiltin_of_toList_error ev apply b he⟩
  · cases h : b.arity.accepts es.length with
    | true => exact .inr ⟨es, rfl, h⟩
    | false => exact .inl ⟨_, fun ev apply => applyBuiltin_of_not_accepts ev apply h⟩

end Builtins

/-! ## Applications -/

section Applications

variable (ev : Evaluator) (chain : Nat)

theorem applyTo_builtin (b : Builtin) (operands : Value) :
    applyTo ev (chain + 1) (.symbol b.name) operands =
      applyBuiltin ev (applyTo ev chain) b operands := by
  simp only [applyTo]
  rw [Builtin.find?_eq_some_iff.2 rfl]

theorem applyTo_primitive {op : Primitive} {es : List Value}
    (h : op.arity.accepts es.length = true) :
    applyTo ev (chain + 1) (.symbol op.name) (ofList es) =
      es.mapM ev >>= fun vs => liftM (op.run vs) :=
  (applyTo_builtin ev chain (.primitive op) _).trans (applyBuiltin_primitive ev _ h)

theorem applyTo_special {form : SpecialForm} {es : List Value}
    (h : form.arity.accepts es.length = true) :
    applyTo ev (chain + 1) (.symbol form.name) (ofList es) =
      form.run ev (applyTo ev chain) (ofList es) :=
  (applyTo_builtin ev chain (.special form) _).trans (applyBuiltin_special ev _ h)

theorem applyTo_procedure {formals body : Value} {es : List Value} (h : Takes formals es.length) :
    applyTo ev (chain + 1) (.procedure formals body) (ofList es) = es.mapM ev >>= fun vs =>
      inCall (bindArguments formals vs >>= fun _ => evalBody ev body.items) := by
  show applyProcedure ev formals body (ofList es) = _
  unfold applyProcedure
  rw [evalArguments_ofList h]

end Applications

/-- An application that does not fail at once is one of three. -/
theorem applyTo_cases (callee operands : Value) :
    (∃ e, ∀ ev chain, applyTo ev (chain + 1) callee operands = throw e) ∨
      (∃ (op : Primitive) (es : List Value), callee = .symbol op.name ∧ operands = ofList es ∧
        op.arity.accepts es.length = true) ∨
      (∃ (form : SpecialForm) (es : List Value), callee = .symbol form.name ∧
        operands = ofList es ∧ form.arity.accepts es.length = true) ∨
      ∃ formals body es, callee = .procedure formals body ∧ operands = ofList es ∧
        Takes formals es.length := by
  cases callee with
  | symbol name =>
    cases hb : Builtin.find? name with
    | none =>
      refine .inl ⟨.notApplicable (.notProcedureName name), fun ev chain => ?_⟩
      simp only [applyTo, hb]
    | some b =>
      obtain rfl := Builtin.find?_eq_some_iff.1 hb
      rcases applyBuiltin_cases b operands with ⟨e, he⟩ | ⟨es, rfl, h⟩
      · exact .inl ⟨e, fun ev chain => by rw [applyTo_builtin, he]⟩
      · cases b with
        | primitive op => exact .inr (.inl ⟨op, es, rfl, rfl, h⟩)
        | special form => exact .inr (.inr (.inl ⟨form, es, rfl, rfl, h⟩))
  | procedure formals body =>
    rcases evalArguments_cases formals operands with ⟨e, he⟩ | ⟨es, rfl, h⟩
    · refine .inl ⟨e, fun ev chain => ?_⟩
      show applyProcedure ev formals body operands = throw e
      unfold applyProcedure
      rw [he]
      rfl
    · exact .inr (.inr (.inr ⟨formals, body, es, rfl, rfl, h⟩))
  | _ => exact .inl ⟨_, fun _ _ => rfl⟩

end DynLisp
