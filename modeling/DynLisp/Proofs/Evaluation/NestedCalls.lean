import Mathlib.Data.List.Basic
import DynLisp.Proofs.Evaluation.Applications
import DynLisp.Proofs.Evaluation.Endless

/-!
# Calls inside a call

The evaluations and applications that an evaluation or application starts itself, one level further
down or at the same level, are nested in it (`Call.Nests`). A call is endless if one of those is
(`Call.Nests.endless`), and only then (`Call.exists_nests_of_endless`), which is shown for each kind
of call by itself:

* `endless_eval_pair`: an application as an expression;
* `endless_primitive`, `endless_procedure`: applications that evaluate their operands;
* `endless_branch` to `endless_let`: the special forms.
-/

namespace DynLisp

open EvalM Chained Value

/-- What a call is about. -/
inductive Task where
  | eval (e : Value)
  | apply (callee operands : Value)

/-- A call, by the levels left for the expressions in it: the evaluation of an expression in so many
levels, or an application whose operands are evaluated in so many levels. -/
structure Call where
  levels : Nat
  task : Task
  state : Interp

section Calls

variable (maxDepth : Nat)

/-- Evaluation within a number of levels. -/
def evalIn (levels : Nat) (e : Value) : Chained Value :=
  fun chain => eval ⟨maxDepth, chain⟩ levels e

/-- Application, with operands evaluated within a number of levels. -/
def applyIn (levels : Nat) (callee operands : Value) : Chained Value :=
  fun chain => applyTo (eval ⟨maxDepth, chain⟩ levels) chain callee operands

/-- The expression has this value, and leaves this state. -/
def Evaluates (levels : Nat) (e : Value) (s : Interp) (v : Value) (t : Interp) : Prop :=
  (evalIn maxDepth levels e).Yields s (.ok v) t

/-- The expressions, evaluated in order, have these values, and leave this state. -/
def EvaluatesAll (levels : Nat) (es : List Value) (s : Interp) (vs : List Value) (t : Interp) :
    Prop :=
  Yields (fun chain => es.mapM (eval ⟨maxDepth, chain⟩ levels)) s (.ok vs) t

/-- The branch that the value of a condition selects, if there is one. -/
def takenBranch (branches : List Value) (v : Value) : Except EvalError (Option Value) :=
  match v.toFloat? with
  | some x => .ok branches[if x != 0.0 then 0 else 1]?
  | none => .error (.typeMismatch (.condition v))

namespace Call

/-- The call does not end, however long its chains of applications may be. -/
def Endless (c : Call) : Prop :=
  match c.task with
  | .eval e => (evalIn maxDepth c.levels e).Endless c.state
  | .apply callee operands => (applyIn maxDepth c.levels callee operands).Endless c.state

/-- One application by the form `apply` follows another at the same level: the first one looks up
what to apply, evaluates to what, and goes on with that. -/
inductive HandsOver : Call → Call → Prop where
  | mk {levels : Nat} {name : String} {e callee operands : Value} {s t : Interp} :
    s.env.lookup name = .ok callee → Evaluates maxDepth levels e s operands t →
      HandsOver ⟨levels, .apply (.symbol SpecialForm.apply.name) (ofList [.symbol name, e]), s⟩
        ⟨levels, .apply callee (asOperands operands), t⟩

/-- The second call is started by the first, in the state that the first has reached then. -/
inductive Nests : Call → Call → Prop where
  | head {n h operands s} : Nests ⟨n + 1, .eval (.pair h operands), s⟩ ⟨n, .eval h, s⟩
  | application {n h operands s callee t} : Evaluates maxDepth n h s callee t →
    Nests ⟨n + 1, .eval (.pair h operands), s⟩ ⟨n, .apply callee operands, t⟩
  | primitiveOperand {n s t} {op : Primitive} {done e more vs} :
    op.arity.accepts (done ++ e :: more).length = true → EvaluatesAll maxDepth n done s vs t →
      Nests ⟨n, .apply (.symbol op.name) (ofList (done ++ e :: more)), s⟩ ⟨n, .eval e, t⟩
  | procedureOperand {n s t formals body done e more vs} :
    Takes formals (done ++ e :: more).length → EvaluatesAll maxDepth n done s vs t →
      Nests ⟨n, .apply (.procedure formals body) (ofList (done ++ e :: more)), s⟩ ⟨n, .eval e, t⟩
  | procedureBody {n s t u w formals body es vs done e more ws} :
    Takes formals es.length → EvaluatesAll maxDepth n es s vs t →
      bindArguments formals vs { t with env := t.env.push } = some (.ok (), u) →
      body.items = done ++ e :: more → EvaluatesAll maxDepth n done u ws w →
      Nests ⟨n, .apply (.procedure formals body) (ofList es), s⟩ ⟨n, .eval e, w⟩
  | condition {n s e es} : SpecialForm.branch.arity.accepts (e :: es).length = true →
    Nests ⟨n, .apply (.symbol SpecialForm.branch.name) (ofList (e :: es)), s⟩ ⟨n, .eval e, s⟩
  | branch {n s t e es v e'} : SpecialForm.branch.arity.accepts (e :: es).length = true →
    Evaluates maxDepth n e s v t → takenBranch es v = .ok (some e') →
      Nests ⟨n, .apply (.symbol SpecialForm.branch.name) (ofList (e :: es)), s⟩ ⟨n, .eval e', t⟩
  | defined {n s name e} :
    Nests ⟨n, .apply (.symbol SpecialForm.define.name) (ofList [.symbol name, e]), s⟩
      ⟨n, .eval e, s⟩
  | printed {n s e} :
    Nests ⟨n, .apply (.symbol SpecialForm.print.name) (ofList [e]), s⟩ ⟨n, .eval e, s⟩
  | evaluated {n s e} :
    Nests ⟨n, .apply (.symbol SpecialForm.eval.name) (ofList [e]), s⟩ ⟨n, .eval e, s⟩
  | evaluatedAgain {n s t e v} : Evaluates maxDepth n e s v t →
    Nests ⟨n, .apply (.symbol SpecialForm.eval.name) (ofList [e]), s⟩ ⟨n, .eval v, t⟩
  | appliedTo {n s name callee e} : s.env.lookup name = .ok callee →
    Nests ⟨n, .apply (.symbol SpecialForm.apply.name) (ofList [.symbol name, e]), s⟩
      ⟨n, .eval e, s⟩
  | handOver {c c' : Call} : HandsOver maxDepth c c' → Nests c c'
  | letProcedure {n s bindings e es pairs} : splitBindings bindings = .ok pairs →
    checkFormals (ofList (pairs.map fun (name, _) => .symbol name)) = .ok () →
      Nests ⟨n, .apply (.symbol SpecialForm.letIn.name) (ofList (bindings :: e :: es)), s⟩
        ⟨n, .apply
          (.procedure (ofList (pairs.map fun (name, _) => .symbol name)) (ofList (e :: es)))
          (ofList (pairs.map Prod.snd)), s⟩

end Call

/-! ## What always ends -/

theorem runQuote_ends (args : List Value) : Ends (SpecialForm.runQuote args) := by
  unfold SpecialForm.runQuote
  split
  · exact .pure _
  · exact .throw _

theorem runLambda_ends (args : List Value) : Ends (SpecialForm.runLambda args) := by
  unfold SpecialForm.runLambda
  split
  · exact .lift _
  · exact .throw _

theorem bindEach_ends (formals values : List Value) : Ends (bindEach formals values) := by
  induction formals generalizing values with
  | nil => exact .pure ()
  | cons formal formals ih =>
    cases values with
    | nil => cases formal <;> exact .pure ()
    | cons v vs =>
      cases formal with
      | symbol name => exact (Ends.define name v).bind fun _ => ih vs
      | _ => exact .throw _

theorem bindArguments_ends (formals : Value) (values : List Value) :
    Ends (bindArguments formals values) := by
  unfold bindArguments
  split
  · exact .define _ _
  · exact bindEach_ends _ _

/-! ## Longer chains -/

theorem stable_evalIn (levels : Nat) (e : Value) : (evalIn maxDepth levels e).Stable :=
  fun _ _ hchain => @Congruence.eval _ congruence_extends ⟨maxDepth, _⟩ ⟨maxDepth, _⟩ hchain 0
    (fun _ => congruence_extends.throw (.depthLimit maxDepth)) levels e

theorem stable_applyIn (levels : Nat) (callee operands : Value) :
    (applyIn maxDepth levels callee operands).Stable :=
  fun _ _ hchain => congruence_extends.applyTo (fun e => stable_evalIn maxDepth levels e _ _ hchain)
    hchain callee operands

theorem stable_mapM (levels : Nat) (es : List Value) :
    Stable fun chain => es.mapM (eval ⟨maxDepth, chain⟩ levels) :=
  @Stable.mapM (fun chain => eval ⟨maxDepth, chain⟩ levels) (stable_evalIn maxDepth levels) es

theorem stable_evalBody (levels : Nat) (es : List Value) :
    Stable fun chain => evalBody (eval ⟨maxDepth, chain⟩ levels) es :=
  @Stable.evalBody (fun chain => eval ⟨maxDepth, chain⟩ levels) (stable_evalIn maxDepth levels) es

variable {maxDepth} {levels : Nat} {s : Interp}

/-- An application ends as it does if its first step is left out. -/
theorem yields_applyIn {callee operands : Value} {r : Except EvalError Value} {t : Interp} :
    (applyIn maxDepth levels callee operands).Yields s r t ↔
      Yields (fun chain => applyTo (eval ⟨maxDepth, chain⟩ levels) (chain + 1) callee operands)
        s r t := by
  have hev : ∀ {chain chain' : Nat}, chain ≤ chain' → ∀ e,
      Extends (eval ⟨maxDepth, chain⟩ levels e) (eval ⟨maxDepth, chain'⟩ levels e) :=
    fun hchain e => stable_evalIn maxDepth levels e _ _ hchain
  constructor
  · rintro ⟨chain, h⟩
    exact ⟨chain, congruence_extends.applyTo (hev (Nat.le_refl chain)) (Nat.le_succ chain) callee
      operands _ _ h⟩
  · rintro ⟨chain, h⟩
    exact ⟨chain + 1, congruence_extends.applyTo (hev (Nat.le_succ chain)) (Nat.le_refl _) callee
      operands _ _ h⟩

/-- An application that is endless with its first step left out is endless. -/
theorem endless_applyIn {callee operands : Value} :
    (applyIn maxDepth levels callee operands).Endless s ↔
      Chained.Endless
        (fun chain => applyTo (eval ⟨maxDepth, chain⟩ levels) (chain + 1) callee operands) s := by
  simp only [endless_iff_not_yields, yields_applyIn]

theorem not_endless_of_throws {callee operands : Value} {e : EvalError}
    (h : ∀ ev chain, applyTo ev (chain + 1) callee operands = throw e) :
    ¬ (applyIn maxDepth levels callee operands).Endless s := by
  rw [endless_applyIn]
  simp only [h]
  exact (Ends.throw e).not_endless s

/-! ## Evaluation -/

theorem not_endless_eval_zero (e : Value) : ¬ (evalIn maxDepth 0 e).Endless s :=
  (Ends.throw (.depthLimit maxDepth)).not_endless s

/-- Only the evaluation of an application can be endless. -/
theorem not_endless_eval {e : Value} (h : ∀ head operands, e ≠ .pair head operands) :
    ¬ (evalIn maxDepth (levels + 1) e).Endless s := by
  cases e with
  | nil => exact (Ends.throw .emptyEvaluation).not_endless s
  | symbol name => exact (Ends.lookup name).not_endless s
  | pair head operands => exact (h head operands rfl).elim
  | int n => exact (Ends.pure (Value.int n)).not_endless s
  | float x => exact (Ends.pure (Value.float x)).not_endless s
  | procedure formals body => exact (Ends.pure (Value.procedure formals body)).not_endless s

theorem endless_eval_pair {head operands : Value} :
    (evalIn maxDepth (levels + 1) (.pair head operands)).Endless s ↔
      (evalIn maxDepth levels head).Endless s ∨
        ∃ callee t, Evaluates maxDepth levels head s callee t ∧
          (applyIn maxDepth levels callee operands).Endless t := by
  show Chained.Endless (fun chain => evalIn maxDepth levels head chain >>= fun callee =>
    applyIn maxDepth levels callee operands chain) s ↔ _
  exact endless_bind (stable_evalIn maxDepth levels head)
    fun callee => stable_applyIn maxDepth levels callee operands

theorem endless_operands {es : List Value} :
    Chained.Endless (fun chain => es.mapM (eval ⟨maxDepth, chain⟩ levels)) s ↔
      ∃ done e more vs t, es = done ++ e :: more ∧ EvaluatesAll maxDepth levels done s vs t ∧
        (evalIn maxDepth levels e).Endless t :=
  @endless_mapM (fun chain => eval ⟨maxDepth, chain⟩ levels) (stable_evalIn maxDepth levels) es s

theorem endless_body {es : List Value} :
    Chained.Endless (fun chain => evalBody (eval ⟨maxDepth, chain⟩ levels) es) s ↔
      ∃ done e more vs t, es = done ++ e :: more ∧ EvaluatesAll maxDepth levels done s vs t ∧
        (evalIn maxDepth levels e).Endless t :=
  (@endless_evalBody (fun chain => eval ⟨maxDepth, chain⟩ levels) (stable_evalIn maxDepth levels) es
    s).trans endless_operands

theorem endless_primitive {op : Primitive} {es : List Value}
    (h : op.arity.accepts es.length = true) :
    (applyIn maxDepth levels (.symbol op.name) (ofList es)).Endless s ↔
      ∃ done e more vs t, es = done ++ e :: more ∧ EvaluatesAll maxDepth levels done s vs t ∧
        (evalIn maxDepth levels e).Endless t := by
  rw [endless_applyIn]
  simp only [applyTo_primitive _ _ h]
  rw [endless_bind_ends (stable_mapM maxDepth levels es) fun vs => Ends.lift (op.run vs),
    endless_operands]

theorem endless_procedure {formals body : Value} {es : List Value} (h : Takes formals es.length) :
    (applyIn maxDepth levels (.procedure formals body) (ofList es)).Endless s ↔
      (∃ done e more vs t, es = done ++ e :: more ∧ EvaluatesAll maxDepth levels done s vs t ∧
        (evalIn maxDepth levels e).Endless t) ∨
      ∃ vs t u, EvaluatesAll maxDepth levels es s vs t ∧
        bindArguments formals vs { t with env := t.env.push } = some (.ok (), u) ∧
        ∃ done e more ws w, body.items = done ++ e :: more ∧
          EvaluatesAll maxDepth levels done u ws w ∧ (evalIn maxDepth levels e).Endless w := by
  have hbody : ∀ vs, Stable fun chain => inCall (bindArguments formals vs >>= fun _ =>
      evalBody (eval ⟨maxDepth, chain⟩ levels) body.items) := fun vs _ _ hchain =>
    congruence_extends.inCall (congruence_extends.bind (congruence_extends.bindArguments formals vs)
      fun _ => stable_evalBody maxDepth levels body.items _ _ hchain)
  have hends : ∀ vs u, Chained.Endless (fun chain => bindArguments formals vs >>= fun _ =>
      evalBody (eval ⟨maxDepth, chain⟩ levels) body.items) u ↔ _ := fun vs u =>
    endless_ends_bind (bindArguments_ends formals vs)
      fun _ => stable_evalBody maxDepth levels body.items
  rw [endless_applyIn]
  simp only [applyTo_procedure _ _ h]
  rw [endless_bind (stable_mapM maxDepth levels es) hbody, endless_operands]
  simp only [endless_inCall, hends, endless_body]
  refine or_congr_right (exists_congr fun vs => exists_congr fun t => ?_)
  constructor
  · rintro ⟨hvs, _, u, hu, h⟩
    exact ⟨u, hvs, hu, h⟩
  · rintro ⟨u, hvs, hu, h⟩
    exact ⟨hvs, (), u, hu, h⟩

/-! ## Special forms -/

theorem run_ofList (ev : Evaluator) (apply : Value → Value → EvalM Value) (form : SpecialForm)
    (es : List Value) : form.run ev apply (ofList es) = match form with
      | .quote => SpecialForm.runQuote es
      | .branch => SpecialForm.runBranch ev es
      | .define => SpecialForm.runDefine ev es
      | .print => SpecialForm.runPrint ev es
      | .eval => SpecialForm.runEval ev es
      | .lambda => SpecialForm.runLambda es
      | .apply => SpecialForm.runApply ev apply es
      | .letIn => SpecialForm.runLet ev es := by
  unfold SpecialForm.run
  rw [toList_ofList]
  cases form <;> rfl

/-- A form, with its first step left out. -/
theorem endless_special {form : SpecialForm} {es : List Value}
    (h : form.arity.accepts es.length = true) :
    (applyIn maxDepth levels (.symbol form.name) (ofList es)).Endless s ↔
      Chained.Endless (fun chain => form.run (eval ⟨maxDepth, chain⟩ levels)
        (fun callee operands => applyIn maxDepth levels callee operands chain) (ofList es)) s := by
  rw [endless_applyIn]
  simp only [applyTo_special _ _ h]
  rfl

theorem evalCondition_bind (ev : Evaluator) (e : Value) (f : Bool → EvalM Value) :
    SpecialForm.evalCondition ev e >>= f = ev e >>= fun v => match v.toFloat? with
      | some x => f (x != 0.0)
      | none => throw (.typeMismatch (.condition v)) := by
  unfold SpecialForm.evalCondition
  rw [bind_assoc]
  refine congrArg _ (funext fun v => ?_)
  cases v.toFloat? <;> rfl

/-- Operands that `if` takes are a condition and one or two branches. -/
theorem branches_of_accepts {e : Value} {es : List Value}
    (h : SpecialForm.branch.arity.accepts (e :: es).length = true) :
    (∃ e₁, es = [e₁]) ∨ ∃ e₁ e₂, es = [e₁, e₂] := by
  match es, h with
  | [e₁], _ => exact .inl ⟨e₁, rfl⟩
  | [e₁, e₂], _ => exact .inr ⟨e₁, e₂, rfl⟩

theorem runBranch_eq (ev : Evaluator) {e : Value} {es : List Value}
    (h : SpecialForm.branch.arity.accepts (e :: es).length = true) :
    SpecialForm.runBranch ev (e :: es) = ev e >>= fun v => liftM (takenBranch es v) >>= fun
      | some e' => ev e'
      | none => pure .nil := by
  rcases branches_of_accepts h with ⟨e₁, rfl⟩ | ⟨e₁, e₂, rfl⟩
  all_goals
    refine (evalCondition_bind ev e _).trans (congrArg _ (funext fun v => ?_))
    unfold takenBranch
    cases v.toFloat? with
    | none => rfl
    | some x =>
      dsimp only
      cases x != 0.0 <;> rfl

theorem endless_branch {e : Value} {es : List Value}
    (h : SpecialForm.branch.arity.accepts (e :: es).length = true) :
    (applyIn maxDepth levels (.symbol SpecialForm.branch.name) (ofList (e :: es))).Endless s ↔
      (evalIn maxDepth levels e).Endless s ∨ ∃ v t e', Evaluates maxDepth levels e s v t ∧
        takenBranch es v = .ok (some e') ∧ (evalIn maxDepth levels e').Endless t := by
  have htaken : ∀ v, Stable fun chain => liftM (takenBranch es v) >>= fun
      | some e' => eval ⟨maxDepth, chain⟩ levels e'
      | none => pure Value.nil := by
    refine fun v _ _ hchain => congruence_extends.lift_bind (takenBranch es v) fun e' => ?_
    cases e' with
    | none => exact congruence_extends.pure Value.nil
    | some e' => exact stable_evalIn maxDepth levels e' _ _ hchain
  rw [endless_special h]
  simp only [run_ofList, runBranch_eq _ h]
  refine (endless_bind (stable_evalIn maxDepth levels e) htaken).trans ?_
  simp only [endless_lift_bind]
  refine or_congr_right (exists_congr fun v => exists_congr fun t => ?_)
  constructor
  · rintro ⟨hv, _ | e', he', h⟩
    · exact ((Ends.pure Value.nil).not_endless t h).elim
    · exact ⟨e', hv, he', h⟩
  · rintro ⟨e', hv, he', h⟩
    exact ⟨hv, some e', he', h⟩

theorem endless_define {name : String} {e : Value} :
    (applyIn maxDepth levels (.symbol SpecialForm.define.name)
        (ofList [.symbol name, e])).Endless s ↔
      (evalIn maxDepth levels e).Endless s := by
  rw [endless_special rfl]
  simp only [run_ofList]
  exact endless_bind_ends (stable_evalIn maxDepth levels e)
    fun v => (Ends.define name v).bind fun _ => .pure _

theorem endless_print {e : Value} :
    (applyIn maxDepth levels (.symbol SpecialForm.print.name) (ofList [e])).Endless s ↔
      (evalIn maxDepth levels e).Endless s := by
  rw [endless_special rfl]
  simp only [run_ofList]
  exact endless_bind_ends (stable_evalIn maxDepth levels e)
    fun v => (Ends.writeLine v.pieces).bind fun _ => .pure _

theorem endless_eval {e : Value} :
    (applyIn maxDepth levels (.symbol SpecialForm.eval.name) (ofList [e])).Endless s ↔
      (evalIn maxDepth levels e).Endless s ∨ ∃ v t, Evaluates maxDepth levels e s v t ∧
        (evalIn maxDepth levels v).Endless t := by
  rw [endless_special rfl]
  simp only [run_ofList]
  exact endless_bind (stable_evalIn maxDepth levels e) fun v => stable_evalIn maxDepth levels v

theorem endless_apply {name : String} {e : Value} :
    (applyIn maxDepth levels (.symbol SpecialForm.apply.name)
        (ofList [.symbol name, e])).Endless s ↔
      ∃ callee, s.env.lookup name = .ok callee ∧ ((evalIn maxDepth levels e).Endless s ∨
        ∃ v t, Evaluates maxDepth levels e s v t ∧
          (applyIn maxDepth levels callee (asOperands v)).Endless t) := by
  rw [endless_special rfl]
  simp only [run_ofList]
  refine endless_lookup_bind.trans (exists_congr fun callee => and_congr_right fun _ => ?_)
  exact endless_bind (stable_evalIn maxDepth levels e)
    fun v => stable_applyIn maxDepth levels callee (asOperands v)

theorem endless_let {bindings e : Value} {es : List Value} :
    (applyIn maxDepth levels (.symbol SpecialForm.letIn.name)
        (ofList (bindings :: e :: es))).Endless s ↔
      ∃ pairs, splitBindings bindings = .ok pairs ∧
        checkFormals (ofList (pairs.map fun (name, _) => .symbol name)) = .ok () ∧
        (applyIn maxDepth levels
          (.procedure (ofList (pairs.map fun (name, _) => .symbol name)) (ofList (e :: es)))
          (ofList (pairs.map Prod.snd))).Endless s := by
  rw [endless_special rfl]
  simp only [run_ofList]
  refine endless_lift_bind.trans (exists_congr fun pairs => and_congr_right fun _ => ?_)
  refine endless_lift_bind.trans ?_
  rw [endless_applyIn]
  exact ⟨fun ⟨_, hchecked, h⟩ => ⟨hchecked, h⟩, fun ⟨hchecked, h⟩ => ⟨(), hchecked, h⟩⟩

/-! ## Calls -/

namespace Call

/-- Of a call that is endless, the one that it is nested in is endless too. -/
theorem Nests.endless {c c' : Call} (h : Nests maxDepth c c') (h' : c'.Endless maxDepth) :
    c.Endless maxDepth := by
  cases h with
  | head => exact endless_eval_pair.2 (.inl h')
  | application hcallee => exact endless_eval_pair.2 (.inr ⟨_, _, hcallee, h'⟩)
  | primitiveOperand hcount hvs =>
    exact (endless_primitive hcount).2 ⟨_, _, _, _, _, rfl, hvs, h'⟩
  | procedureOperand hcount hvs =>
    exact (endless_procedure hcount).2 (.inl ⟨_, _, _, _, _, rfl, hvs, h'⟩)
  | procedureBody hcount hvs hbound hbody hws =>
    exact (endless_procedure hcount).2
      (.inr ⟨_, _, _, hvs, hbound, _, _, _, _, _, hbody, hws, h'⟩)
  | condition hcount => exact (endless_branch hcount).2 (.inl h')
  | branch hcount hv htaken => exact (endless_branch hcount).2 (.inr ⟨_, _, _, hv, htaken, h'⟩)
  | defined => exact endless_define.2 h'
  | printed => exact endless_print.2 h'
  | evaluated => exact endless_eval.2 (.inl h')
  | evaluatedAgain hv => exact endless_eval.2 (.inr ⟨_, _, hv, h'⟩)
  | appliedTo hcallee => exact endless_apply.2 ⟨_, hcallee, .inl h'⟩
  | handOver hover =>
    obtain ⟨hcallee, hv⟩ := hover
    exact endless_apply.2 ⟨_, hcallee, .inr ⟨_, _, hv, h'⟩⟩
  | letProcedure hpairs hchecked => exact endless_let.2 ⟨_, hpairs, hchecked, h'⟩

theorem exists_nests_of_eval {levels : Nat} {e : Value} {s : Interp}
    (h : (evalIn maxDepth levels e).Endless s) :
    ∃ c', Nests maxDepth ⟨levels, .eval e, s⟩ c' ∧ c'.Endless maxDepth := by
  cases levels with
  | zero => exact (not_endless_eval_zero e h).elim
  | succ levels =>
    by_cases he : ∃ head operands, e = .pair head operands
    · obtain ⟨head, operands, rfl⟩ := he
      rcases endless_eval_pair.1 h with h | ⟨callee, t, hcallee, h⟩
      · exact ⟨_, .head, h⟩
      · exact ⟨_, .application hcallee, h⟩
    · exact (not_endless_eval (fun head operands hpair => he ⟨head, operands, hpair⟩) h).elim

theorem exists_nests_of_special {levels : Nat} {form : SpecialForm} {es : List Value} {s : Interp}
    (hcount : form.arity.accepts es.length = true)
    (h : (applyIn maxDepth levels (.symbol form.name) (ofList es)).Endless s) :
    ∃ c', Nests maxDepth ⟨levels, .apply (.symbol form.name) (ofList es), s⟩ c' ∧
      c'.Endless maxDepth := by
  have hrun := (endless_special hcount).1 h
  simp only [run_ofList] at hrun
  cases form with
  | quote => exact ((runQuote_ends es).not_endless s hrun).elim
  | lambda => exact ((runLambda_ends es).not_endless s hrun).elim
  | branch =>
    cases es with
    | nil => cases hcount
    | cons e es =>
      rcases (endless_branch hcount).1 h with h | ⟨v, t, e', hv, htaken, h⟩
      · exact ⟨_, .condition hcount, h⟩
      · exact ⟨_, .branch hcount hv htaken, h⟩
  | define =>
    obtain ⟨target, e, rfl⟩ := List.length_eq_two.1 (eq_of_beq hcount)
    cases target with
    | symbol name => exact ⟨_, .defined, endless_define.1 h⟩
    | _ => exact ((Ends.throw _).not_endless s hrun).elim
  | print =>
    obtain ⟨e, rfl⟩ := List.length_eq_one_iff.1 (eq_of_beq hcount)
    exact ⟨_, .printed, endless_print.1 h⟩
  | eval =>
    obtain ⟨e, rfl⟩ := List.length_eq_one_iff.1 (eq_of_beq hcount)
    rcases endless_eval.1 h with h | ⟨v, t, hv, h⟩
    · exact ⟨_, .evaluated, h⟩
    · exact ⟨_, .evaluatedAgain hv, h⟩
  | apply =>
    obtain ⟨target, e, rfl⟩ := List.length_eq_two.1 (eq_of_beq hcount)
    cases target with
    | symbol name =>
      obtain ⟨callee, hcallee, h | ⟨v, t, hv, h⟩⟩ := endless_apply.1 h
      · exact ⟨_, .appliedTo hcallee, h⟩
      · exact ⟨_, .handOver ⟨hcallee, hv⟩, h⟩
    | _ => exact ((Ends.throw _).not_endless s hrun).elim
  | letIn =>
    match es, hcount with
    | bindings :: e :: es, _ =>
      obtain ⟨pairs, hpairs, hchecked, h⟩ := endless_let.1 h
      exact ⟨_, .letProcedure hpairs hchecked, h⟩

/-- A call that is endless has another one nested in it. -/
theorem exists_nests_of_endless {c : Call} (h : c.Endless maxDepth) :
    ∃ c', Nests maxDepth c c' ∧ c'.Endless maxDepth := by
  obtain ⟨levels, task, s⟩ := c
  cases task with
  | eval e => exact exists_nests_of_eval h
  | apply callee operands =>
    rcases applyTo_cases callee operands with ⟨e, he⟩ | ⟨op, es, rfl, rfl, hcount⟩ |
      ⟨form, es, rfl, rfl, hcount⟩ | ⟨formals, body, es, rfl, rfl, hcount⟩
    · exact (not_endless_of_throws he h).elim
    · obtain ⟨done, e, more, vs, t, rfl, hvs, h⟩ := (endless_primitive hcount).1 h
      exact ⟨_, .primitiveOperand hcount hvs, h⟩
    · exact exists_nests_of_special hcount h
    · rcases (endless_procedure hcount).1 h with
        ⟨done, e, more, vs, t, rfl, hvs, h⟩ |
        ⟨vs, t, u, hvs, hu, done, e, more, ws, w, hbody, hws, h⟩
      · exact ⟨_, .procedureOperand hcount hvs, h⟩
      · exact ⟨_, .procedureBody hcount hvs hu hbody hws, h⟩

end Call

end Calls

end DynLisp
