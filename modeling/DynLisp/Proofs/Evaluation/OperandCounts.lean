import DynLisp.Proofs.Evaluation.Procedures

/-!
# Operand counts inside the implementations

The implementation of a builtin has an arity error of its own for a count of operands that it does
not take. On the counts that its arity accepts it never ends with this error:

* `Primitive.not_isOperandCount_of_run`: no primitive operation does;
* `SpecialForm.exists_failsWith_of_run`: if a special form does, then the error is that of an
  expression inside the form, or of the application that `apply` goes on with.

The second is seen from how a computation can fail at all (`EvalM.FailsWith`), whatever evaluates the
expressions inside the form.
-/

namespace DynLisp

/-- Whether an error is the complaint of an implementation about the count of its operands. Where a
call is rejected before, the error has the text of the call. -/
def EvalError.IsOperandCount : EvalError → Prop
  | .arity _ _ none => True
  | _ => False

/-! ## Primitive operations -/

namespace Arithmetic

variable {op : Primitive} {args : List Value} {e : EvalError}

/-- The number of operands. -/
def Operands.count : Operands → Nat
  | .integers ns => ns.length
  | .floats xs => xs.length

theorem length_filterMap_int? (hnumber : ∀ v ∈ args, v.isNumber = true)
    (hexact : ∀ v ∈ args, v.isFloat = false) : (args.filterMap int?).length = args.length := by
  refine List.filterMap_length_eq_length.2 fun v hv => ?_
  have hn := hnumber v hv
  have he := hexact v hv
  cases v with
  | int n => rfl
  | float x => cases he
  | _ => cases hn

theorem length_filterMap_toFloat? (hnumber : ∀ v ∈ args, v.isNumber = true) :
    (args.filterMap Value.toFloat?).length = args.length := by
  refine List.filterMap_length_eq_length.2 fun v hv => ?_
  have hn := hnumber v hv
  cases v with
  | int n => rfl
  | float x => rfl
  | _ => cases hn

/-- Making operands alike loses none. -/
theorem count_of_operands {sorted : Operands} (h : operands op args = .ok sorted) :
    sorted.count = args.length := by
  unfold operands at h
  cases hfind : args.find? fun v => !v.isNumber with
  | some v =>
    rw [hfind] at h
    cases h
  | none =>
    have hnumber : ∀ v ∈ args, v.isNumber = true := fun v hv => by
      simpa using List.find?_eq_none.1 hfind v hv
    rw [hfind] at h
    dsimp only at h
    split at h
    · cases h
      exact length_filterMap_toFloat? hnumber
    · rename_i hexact
      cases h
      refine length_filterMap_int? hnumber fun v hv => ?_
      rw [Bool.eq_false_iff]
      exact fun hfloat => hexact (List.any_eq_true.2 ⟨v, hv, hfloat⟩)

theorem not_isOperandCount_of_operands (h : operands op args = .error e) :
    ¬ e.IsOperandCount := by
  unfold operands at h
  split at h
  · cases h
    exact id
  · split at h <;> cases h

theorem not_isOperandCount_of_checked {n : Int} (h : checked op n = .error e) :
    ¬ e.IsOperandCount := by
  unfold checked at h
  split at h
  · cases h
  · cases h
    exact id

theorem not_isOperandCount_of_foldChecked {f : Int → Int → Int} {start : Int64} {ns : List Int64}
    (h : foldChecked op f start ns = .error e) : ¬ e.IsOperandCount := by
  unfold foldChecked at h
  induction ns generalizing start with
  | nil => cases h
  | cons n ns ih =>
    rw [List.foldlM_cons] at h
    rcases error_of_bind_eq_error h with h | ⟨acc, -, h⟩
    · exact not_isOperandCount_of_checked h
    · exact ih h

theorem error_of_int {x : Except EvalError Int64}
    (h : (do return Value.int (← x)) = Except.error e) : x = .error e := by
  rcases error_of_bind_eq_error h with h | ⟨_, -, h⟩
  · exact h
  · cases h

/-- Sums and products complain about no count. -/
theorem not_isOperandCount_of_fold {f : Int → Int → Int} {start : Int64} {g : List Float → Float}
    (h : (operands op args >>= fun sorted => match sorted with
      | .integers ns => do return Value.int (← foldChecked op f start ns)
      | .floats xs => return .float (g xs)) = .error e) : ¬ e.IsOperandCount := by
  rcases error_of_bind_eq_error h with h | ⟨sorted, -, h⟩
  · exact not_isOperandCount_of_operands h
  · cases sorted with
    | integers ns => exact not_isOperandCount_of_foldChecked (error_of_int h)
    | floats xs => cases h

/-- Subtraction complains only if there is no operand at all. -/
theorem not_isOperandCount_of_sub (hargs : 1 ≤ args.length) (h : sub args = .error e) :
    ¬ e.IsOperandCount := by
  rcases error_of_bind_eq_error h with h | ⟨sorted, hsorted, h⟩
  · exact not_isOperandCount_of_operands h
  · rw [← count_of_operands hsorted] at hargs
    match sorted, hargs, h with
    | .integers [n], _, h => exact not_isOperandCount_of_checked (error_of_int h)
    | .integers (n :: m :: ns), _, h => exact not_isOperandCount_of_foldChecked (error_of_int h)
    | .floats [x], _, h => cases h
    | .floats (x :: y :: xs), _, h => cases h

/-- So does division. -/
theorem not_isOperandCount_of_div (hargs : 1 ≤ args.length) (h : div args = .error e) :
    ¬ e.IsOperandCount := by
  rcases error_of_bind_eq_error h with h | ⟨sorted, hsorted, h⟩
  · exact not_isOperandCount_of_operands h
  · rw [← count_of_operands hsorted] at hargs
    dsimp only at h
    split at h
    · cases h
      exact id
    · match sorted, hargs, h with
      | .integers [n], _, h => exact not_isOperandCount_of_checked (error_of_int h)
      | .integers (n :: m :: ns), _, h => exact not_isOperandCount_of_foldChecked (error_of_int h)
      | .floats [x], _, h => cases h
      | .floats (x :: y :: xs), _, h => cases h

/-- The divisors of one operand or more are taken from what is there. -/
theorem divisors_of_ne_nil (hargs : 1 ≤ args.length) : ∃ first others,
    args = first :: others ∧ divisors args = if others.isEmpty then [first] else others := by
  match args, hargs with
  | [v], _ => exact ⟨v, [], rfl, rfl⟩
  | v :: w :: vs, _ => exact ⟨v, w :: vs, rfl, rfl⟩

theorem not_isOperandCount_of_roundBy {round : Binary64 → Option Int} (hargs : args.length = 1)
    (h : roundBy op round args = .error e) : ¬ e.IsOperandCount := by
  obtain ⟨v, rfl⟩ := List.length_eq_one_iff.1 hargs
  cases v with
  | int n => cases h
  | float x =>
    dsimp only [roundBy] at h
    split at h
    · cases h
    · cases h
      exact id
  | _ =>
    cases h
    exact id

end Arithmetic

namespace Order

variable {args : List Value} {e : EvalError}

theorem not_isOperandCount_of_less? {v w : Value} (h : less? v w = .error e) :
    ¬ e.IsOperandCount := by
  unfold less? at h
  split at h
  · cases h
  · cases h
  · split at h
    · cases h
    · cases h
      exact id

theorem not_isOperandCount_of_increasing (h : increasing args = .error e) :
    ¬ e.IsOperandCount := by
  induction args with
  | nil => cases h
  | cons v vs ih =>
    cases vs with
    | nil => cases h
    | cons w vs =>
      rcases error_of_bind_eq_error h with h | ⟨_, -, h⟩
      · exact not_isOperandCount_of_less? h
      · rcases error_of_bind_eq_error h with h | ⟨_, -, h⟩
        · exact ih h
        · cases h

theorem not_isOperandCount_of_less (h : less args = .error e) : ¬ e.IsOperandCount := by
  unfold less at h
  split at h
  · cases h
    exact id
  · rcases error_of_bind_eq_error h with h | ⟨_, -, h⟩
    · exact not_isOperandCount_of_increasing h
    · cases h

end Order

namespace Primitive

variable {op : Primitive} {args : List Value} {e : EvalError}

theorem error_of_unary {f : Value → Except EvalError Value} (hargs : args.length = 1)
    (h : unary f args = .error e) : ∃ v, f v = .error e := by
  obtain ⟨v, rfl⟩ := List.length_eq_one_iff.1 hargs
  exact ⟨v, h⟩

theorem not_error_of_predicate {p : Value → Bool} (hargs : args.length = 1)
    (h : predicate p args = .error e) : False := by
  obtain ⟨v, hv⟩ := error_of_unary hargs h
  cases hv

theorem not_isOperandCount_of_car {v : Value} (h : v.car = .error e) : ¬ e.IsOperandCount := by
  cases v <;> cases h <;> exact id

theorem not_isOperandCount_of_cdr {v : Value} (h : v.cdr = .error e) : ¬ e.IsOperandCount := by
  cases v <;> cases h <;> exact id

/-- On a count of operands that its arity accepts no operation complains about the count. -/
theorem not_isOperandCount_of_run (haccepts : op.arity.accepts args.length = true)
    (h : op.run args = .error e) : ¬ e.IsOperandCount := by
  cases op with
  | add => exact Arithmetic.not_isOperandCount_of_fold h
  | mul => exact Arithmetic.not_isOperandCount_of_fold h
  | less => exact Order.not_isOperandCount_of_less h
  | sub => exact Arithmetic.not_isOperandCount_of_sub (of_decide_eq_true haccepts) h
  | div => exact Arithmetic.not_isOperandCount_of_div (of_decide_eq_true haccepts) h
  | ceiling => exact Arithmetic.not_isOperandCount_of_roundBy (eq_of_beq haccepts) h
  | floor => exact Arithmetic.not_isOperandCount_of_roundBy (eq_of_beq haccepts) h
  | cons =>
    obtain ⟨v, w, rfl⟩ := List.length_eq_two.1 (eq_of_beq haccepts)
    cases h
  | car =>
    obtain ⟨v, hv⟩ := error_of_unary (eq_of_beq haccepts) h
    exact not_isOperandCount_of_car hv
  | cdr =>
    obtain ⟨v, hv⟩ := error_of_unary (eq_of_beq haccepts) h
    exact not_isOperandCount_of_cdr hv
  | _ => exact (not_error_of_predicate (eq_of_beq haccepts) h).elim

end Primitive

/-! ## How evaluations fail -/

open EvalM Value

/-- From some state the computation ends with this error. -/
def EvalM.FailsWith {α : Type} (x : EvalM α) (e : EvalError) : Prop :=
  ∃ s t, x s = some (.error e, t)

namespace EvalM.FailsWith

variable {α β : Type} {x : EvalM α} {f : α → EvalM β} {e : EvalError}

theorem not_pure {a : α} : ¬ FailsWith (pure a : EvalM α) e := by
  rintro ⟨s, t, h⟩
  cases h

theorem of_throw {e' : EvalError} (h : FailsWith (throw e' : EvalM α) e) : e' = e := by
  obtain ⟨s, t, h⟩ := h
  cases h
  rfl

/-- A sequence fails as one of its parts. -/
theorem of_bind (h : FailsWith (x >>= f) e) : FailsWith x e ∨ ∃ a, FailsWith (f a) e := by
  obtain ⟨s, u, h⟩ := h
  rcases Stateful.bind_eq_some h with ⟨e', he', he⟩ | ⟨a, t, -, hu⟩
  · cases he
    exact .inl ⟨s, u, he'⟩
  · exact .inr ⟨a, t, u, hu⟩

theorem of_lift {r : Except EvalError α} (h : FailsWith (liftM r : EvalM α) e) : r = .error e := by
  cases r with
  | ok a => exact (not_pure h).elim
  | error e' => exact congrArg Except.error (of_throw h)

theorem of_lift_bind {r : Except EvalError α} (h : FailsWith (liftM r >>= f) e) :
    r = .error e ∨ ∃ a, r = .ok a ∧ FailsWith (f a) e := by
  cases r with
  | ok a => exact .inr ⟨a, rfl, h⟩
  | error e' => exact .inl (congrArg Except.error (of_throw h))

theorem of_lookup {name : String} (h : FailsWith (lookup name) e) : e = .unbound name := by
  obtain ⟨s, t, h⟩ := h
  rw [run_lookup] at h
  have hlookup : s.env.lookup name = .error e := congrArg Prod.fst (Option.some.inj h)
  exact (Environment.lookup_eq_error_iff.1 hlookup).1

theorem of_define {name : String} {v : Value} (h : FailsWith (define name v) e) :
    e = .duplicate name := by
  obtain ⟨s, t, h⟩ := h
  rw [run_define] at h
  cases hbound : s.env.current.contains name with
  | true =>
    rw [Environment.define_of_contains hbound] at h
    cases h
    rfl
  | false =>
    obtain ⟨env, henv⟩ := Environment.exists_define_of_not_contains hbound v
    rw [henv] at h
    cases h

theorem of_writeLine {pieces : List String} (h : FailsWith (writeLine pieces) e) :
    ∃ fault, e = .output fault := by
  obtain ⟨s, t, h⟩ := h
  rw [run_writeLine] at h
  cases hline : (s.sink.writeLine pieces).1 with
  | ok _ =>
    rw [hline] at h
    cases h
  | error fault =>
    rw [hline] at h
    cases h
    exact ⟨fault, rfl⟩

theorem of_inCall (h : FailsWith (inCall x) e) : FailsWith x e := by
  obtain ⟨s, t, h⟩ := h
  obtain ⟨t', ht', -⟩ := inCall_ok h
  exact ⟨_, t', ht'⟩

theorem of_mapM {ev : Evaluator} {es : List Value} (h : FailsWith (es.mapM ev) e) :
    ∃ e', FailsWith (ev e') e := by
  induction es with
  | nil => exact (not_pure h).elim
  | cons e' es ih =>
    rw [List.mapM_cons] at h
    rcases of_bind h with h | ⟨v, h⟩
    · exact ⟨e', h⟩
    · rcases of_bind h with h | ⟨vs, h⟩
      · exact ih h
      · exact (not_pure h).elim

theorem of_evalBody {ev : Evaluator} {body : List Value} (h : FailsWith (evalBody ev body) e) :
    ∃ e', FailsWith (ev e') e := by
  induction body with
  | nil => exact (not_pure h).elim
  | cons e' es ih =>
    cases es with
    | nil => exact ⟨e', h⟩
    | cons e'' es =>
      rcases of_bind h with h | ⟨_, h⟩
      · exact ⟨e', h⟩
      · exact ih h

end EvalM.FailsWith

/-! ## Special forms -/

section Checks

variable {v formals : Value} {e : EvalError}

theorem not_isOperandCount_of_toList (h : v.toList = .error e) : ¬ e.IsOperandCount := by
  unfold Value.toList at h
  split at h
  · cases h
    exact id
  · split at h
    · cases h
    · cases h
      exact id

theorem not_isOperandCount_of_checkDistinct {seen : List String} {items : List Value}
    (h : checkDistinct seen items = .error e) : ¬ e.IsOperandCount := by
  induction items generalizing seen with
  | nil => cases h
  | cons item items ih =>
    cases item with
    | symbol name =>
      unfold checkDistinct at h
      split at h
      · cases h
        exact id
      · exact ih h
    | _ =>
      cases h
      exact id

theorem not_isOperandCount_of_checkFormals (h : checkFormals formals = .error e) :
    ¬ e.IsOperandCount := by
  unfold checkFormals at h
  split at h
  · cases h
  · dsimp only at h
    split at h
    · cases h
      exact id
    · rcases error_of_bind_eq_error h with h | ⟨_, -, h⟩
      · exact not_isOperandCount_of_toList h
      · exact not_isOperandCount_of_checkDistinct h

theorem not_isOperandCount_of_makeProcedure {body : List Value}
    (h : makeProcedure formals body = .error e) : ¬ e.IsOperandCount := by
  rcases error_of_bind_eq_error h with h | ⟨_, -, h⟩
  · exact not_isOperandCount_of_checkFormals h
  · cases h

theorem not_isOperandCount_of_splitBinding (h : splitBinding v = .error e) :
    ¬ e.IsOperandCount := by
  unfold splitBinding at h
  split at h
  · cases h
  · cases h
    exact id

theorem not_isOperandCount_of_splitBindings (h : splitBindings v = .error e) :
    ¬ e.IsOperandCount := by
  unfold splitBindings at h
  dsimp only at h
  split at h
  · cases h
    exact id
  · rcases error_of_bind_eq_error h with h | ⟨bindings, -, h⟩
    · exact not_isOperandCount_of_toList h
    · obtain ⟨binding, -, h⟩ := exists_of_mapM_eq_error h
      exact not_isOperandCount_of_splitBinding h

theorem not_isOperandCount_of_takenBranch {branches : List Value}
    (h : takenBranch branches v = .error e) : ¬ e.IsOperandCount := by
  unfold takenBranch at h
  split at h
  · cases h
  · cases h
    exact id

theorem not_isOperandCount_of_bindEach {items values : List Value}
    (h : FailsWith (bindEach items values) e) : ¬ e.IsOperandCount := by
  induction items generalizing values with
  | nil => exact (FailsWith.not_pure h).elim
  | cons item items ih =>
    cases values with
    | nil => cases item <;> exact (FailsWith.not_pure h).elim
    | cons v vs =>
      cases item with
      | symbol name =>
        rcases h.of_bind with h | ⟨_, h⟩
        · obtain rfl := h.of_define
          exact id
        · exact ih h
      | _ =>
        obtain rfl := h.of_throw
        exact id

end Checks

namespace SpecialForm

variable {ev : Evaluator} {apply : Value → Value → EvalM Value} {e : EvalError}

/-- The call of a procedure that has a formal for each operand. -/
theorem exists_failsWith_of_applyProcedure {formals es : List Value} {body : Value}
    (hcount : formals.length = es.length)
    (h : FailsWith (applyProcedure ev (ofList formals) body (ofList es)) e)
    (he : e.IsOperandCount) : ∃ e', FailsWith (ev e') e := by
  have htakes : Takes (ofList formals) es.length := hcount ▸ takes_ofList formals
  rcases h.of_bind with h | ⟨values, h⟩
  · rw [evalArguments_ofList htakes] at h
    exact h.of_mapM
  · rcases h.of_inCall.of_bind with h | ⟨_, h⟩
    · rw [bindArguments_ofList] at h
      exact (not_isOperandCount_of_bindEach h he).elim
    · exact h.of_evalBody

theorem exists_failsWith_of_runLet {bindings e₁ : Value} {es : List Value}
    (h : FailsWith (runLet ev (bindings :: e₁ :: es)) e) (he : e.IsOperandCount) :
    ∃ e', FailsWith (ev e') e := by
  rcases h.of_lift_bind with h | ⟨pairs, -, h⟩
  · exact (not_isOperandCount_of_splitBindings h he).elim
  rcases h.of_lift_bind with h | ⟨_, -, h⟩
  · exact (not_isOperandCount_of_checkFormals h he).elim
  -- There is one name for each expression.
  exact exists_failsWith_of_applyProcedure (by rw [List.length_map, List.length_map]) h he

theorem exists_failsWith_of_runDefine {target operand : Value}
    (h : FailsWith (runDefine ev [target, operand]) e) (he : e.IsOperandCount) :
    ∃ e', FailsWith (ev e') e := by
  cases target with
  | symbol name =>
    rcases h.of_bind with h | ⟨v, h⟩
    · exact ⟨operand, h⟩
    · rcases h.of_bind with h | ⟨_, h⟩
      · obtain rfl := h.of_define
        exact he.elim
      · exact (FailsWith.not_pure h).elim
  | _ =>
    obtain rfl := h.of_throw
    exact he.elim

theorem exists_failsWith_of_runApply {target operand : Value}
    (h : FailsWith (runApply ev apply [target, operand]) e) (he : e.IsOperandCount) :
    (∃ e', FailsWith (ev e') e) ∨ ∃ callee operands, FailsWith (apply callee operands) e := by
  cases target with
  | symbol name =>
    rcases h.of_bind with h | ⟨callee, h⟩
    · obtain rfl := h.of_lookup
      exact he.elim
    · rcases h.of_bind with h | ⟨v, h⟩
      · exact .inl ⟨operand, h⟩
      · exact .inr ⟨callee, _, h⟩
  | _ =>
    obtain rfl := h.of_throw
    exact he.elim

/-- If a form complains about a count, though it accepts that of its own operands, then so did an
evaluation inside it, or the application that it goes on with. -/
theorem exists_failsWith_of_run {form : SpecialForm} {args : List Value}
    (haccepts : form.arity.accepts args.length = true)
    (h : FailsWith (form.run ev apply (ofList args)) e) (he : e.IsOperandCount) :
    (∃ e', FailsWith (ev e') e) ∨ ∃ callee operands, FailsWith (apply callee operands) e := by
  rw [run_ofList] at h
  cases form with
  | quote =>
    obtain ⟨v, rfl⟩ := List.length_eq_one_iff.1 (eq_of_beq haccepts)
    exact (FailsWith.not_pure h).elim
  | branch =>
    cases args with
    | nil => cases haccepts
    | cons condition branches =>
      rw [runBranch_eq ev haccepts] at h
      rcases h.of_bind with h | ⟨v, h⟩
      · exact .inl ⟨_, h⟩
      · rcases h.of_lift_bind with h | ⟨_ | e', -, h⟩
        · exact (not_isOperandCount_of_takenBranch h he).elim
        · exact (FailsWith.not_pure h).elim
        · exact .inl ⟨e', h⟩
  | define =>
    obtain ⟨target, operand, rfl⟩ := List.length_eq_two.1 (eq_of_beq haccepts)
    exact .inl (exists_failsWith_of_runDefine h he)
  | print =>
    obtain ⟨operand, rfl⟩ := List.length_eq_one_iff.1 (eq_of_beq haccepts)
    rcases h.of_bind with h | ⟨v, h⟩
    · exact .inl ⟨_, h⟩
    · rcases h.of_bind with h | ⟨_, h⟩
      · obtain ⟨fault, rfl⟩ := h.of_writeLine
        exact he.elim
      · exact (FailsWith.not_pure h).elim
  | eval =>
    obtain ⟨operand, rfl⟩ := List.length_eq_one_iff.1 (eq_of_beq haccepts)
    rcases h.of_bind with h | ⟨v, h⟩
    · exact .inl ⟨_, h⟩
    · exact .inl ⟨_, h⟩
  | lambda =>
    match args, haccepts, h with
    | formals :: e₁ :: es, _, h => exact (not_isOperandCount_of_makeProcedure h.of_lift he).elim
  | apply =>
    obtain ⟨target, operand, rfl⟩ := List.length_eq_two.1 (eq_of_beq haccepts)
    exact exists_failsWith_of_runApply h he
  | letIn =>
    match args, haccepts, h with
    | bindings :: e₁ :: es, _, h => exact .inl (exists_failsWith_of_runLet h he)

end SpecialForm

end DynLisp
