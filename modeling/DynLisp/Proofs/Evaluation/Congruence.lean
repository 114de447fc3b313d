import DynLisp.Proofs.Evaluation.Runs
import DynLisp.Proofs.Evaluation.Values

/-!
# Relations between evaluations

Evaluations are built from a handful of operations. A relation between evaluations that all of these
keep is kept by every form of the language. It may be one that they keep only on the values of a
class, which evaluation does not leave (`CongruenceOn W P`). The induction over the evaluator is done
here, once:

* `CongruenceOn.applyTo`: applications with related evaluators of the expressions inside;
* `CongruenceOn.evalExpr`: one level of evaluation;
* `CongruenceOn.eval`: all levels, from how evaluations are related where levels run out;
* `CongruenceOn.eval_self`, `CongruenceOn.applyAt_self`: the same evaluation or application on both
  sides.

A relation that is kept on all values (`Congruence P`) is one of these for the class of all values
(`Congruence.onAll`). Chains of applications may be longer on the right-hand side.
-/

namespace DynLisp

/-- What a part of an evaluation can result in, and when such a result belongs to a class of values.
To the class of all values every result belongs. -/
class Result (α : Type) where
  AllIn : (Value → Prop) → α → Prop
  allIn_of_forall : ∀ {W : Value → Prop}, (∀ v, W v) → ∀ a, AllIn W a

instance : Result Value where
  AllIn W v := W v
  allIn_of_forall h v := h v

instance : Result (List Value) where
  AllIn W vs := ∀ v ∈ vs, W v
  allIn_of_forall h _ v _ := h v

instance : Result Bool where
  AllIn _ _ := True
  allIn_of_forall _ _ := trivial

instance : Result Unit where
  AllIn _ _ := True
  allIn_of_forall _ _ := trivial

/-- A relation between evaluations that is kept by the operations they are built from, as long as
these work on values of a class. The results of a related evaluation belong to the class. What does
not finish on the left is related to anything. -/
structure CongruenceOn (W : Value → Prop)
    (P : (α : Type) → [Result α] → EvalM α → EvalM α → Prop) : Prop where
  values : ValueClass W
  pure : ∀ {α : Type} [Result α] {a : α}, Result.AllIn W a → P α (pure a) (pure a)
  throw : ∀ {α : Type} [Result α] (e : EvalError), P α (throw e) (throw e)
  bind : ∀ {α β : Type} [Result α] [Result β] {x y : EvalM α} {f g : α → EvalM β},
    P α x y → (∀ a, Result.AllIn W a → P β (f a) (g a)) → P β (x >>= f) (y >>= g)
  lookup : ∀ {name}, W (.symbol name) → P Value (EvalM.lookup name) (EvalM.lookup name)
  define : ∀ {name v}, W (.symbol name) → W v →
    P Unit (EvalM.define name v) (EvalM.define name v)
  writeLine : ∀ pieces, P Unit (EvalM.writeLine pieces) (EvalM.writeLine pieces)
  inCall : ∀ {x y : EvalM Value}, P Value x y → P Value (EvalM.inCall x) (EvalM.inCall y)
  unfinished : ∀ y : EvalM Value, P Value EvalM.unfinished y

namespace CongruenceOn

open EvalM SpecialForm

variable {W : Value → Prop} {P : (α : Type) → [Result α] → EvalM α → EvalM α → Prop}
  {ev ev' : Evaluator} {apply apply' : Value → Value → EvalM Value}

theorem lift (h : CongruenceOn W P) {α : Type} [Result α] {r : Except EvalError α}
    (hr : ∀ a, r = .ok a → Result.AllIn W a) : P α (liftM r) (liftM r) := by
  cases r with
  | ok a => exact h.pure (hr a rfl)
  | error e => exact h.throw e

/-- After a check or a conversion that needs no evaluation. -/
theorem lift_bind (h : CongruenceOn W P) {α β : Type} [Result β] {r : Except EvalError α}
    {f g : α → EvalM β} (hfg : ∀ a, r = .ok a → P β (f a) (g a)) :
    P β (liftM r >>= f) (liftM r >>= g) := by
  cases r with
  | ok a => exact hfg a rfl
  | error e => exact h.throw e

/-! ## Procedures -/

theorem mapM (h : CongruenceOn W P) (hev : ∀ e, W e → P Value (ev e) (ev' e)) {es : List Value}
    (hes : ∀ e ∈ es, W e) : P (List Value) (es.mapM ev) (es.mapM ev') := by
  induction es with
  | nil => exact h.pure fun _ hv => (List.not_mem_nil hv).elim
  | cons e es ih =>
    obtain ⟨he, hes⟩ := List.forall_mem_cons.1 hes
    rw [List.mapM_cons, List.mapM_cons]
    exact h.bind (hev e he) fun v hv => h.bind (ih hes) fun vs hvs =>
      h.pure (List.forall_mem_cons.2 ⟨hv, hvs⟩)

theorem evalOperands (h : CongruenceOn W P) (hev : ∀ e, W e → P Value (ev e) (ev' e))
    {operands : Value} (hoperands : W operands) :
    P (List Value) (evalOperands ev operands) (evalOperands ev' operands) :=
  h.lift_bind fun _ hes => h.mapM hev fun _ he => h.values.of_toList hoperands hes he

theorem evalArguments (h : CongruenceOn W P) (hev : ∀ e, W e → P Value (ev e) (ev' e))
    (formals : Value) {operands : Value} (hoperands : W operands) :
    P (List Value) (evalArguments ev formals operands) (evalArguments ev' formals operands) := by
  unfold DynLisp.evalArguments
  split
  · exact h.evalOperands hev hoperands
  · refine h.lift_bind fun expected _ => h.lift_bind fun got _ => ?_
    split
    · exact h.throw _
    · exact h.evalOperands hev hoperands

theorem bindEach (h : CongruenceOn W P) {formals values : List Value}
    (hformals : ∀ formal ∈ formals, W formal) (hvalues : ∀ v ∈ values, W v) :
    P Unit (bindEach formals values) (bindEach formals values) := by
  induction formals generalizing values with
  | nil => exact h.pure trivial
  | cons formal formals ih =>
    obtain ⟨hfirst, hothers⟩ := List.forall_mem_cons.1 hformals
    cases values with
    | nil => cases formal <;> exact h.pure trivial
    | cons v vs =>
      obtain ⟨hv, hvs⟩ := List.forall_mem_cons.1 hvalues
      cases formal with
      | symbol name => exact h.bind (h.define hfirst hv) fun _ _ => ih hothers hvs
      | _ => exact h.throw _

theorem bindArguments (h : CongruenceOn W P) {formals : Value} {values : List Value}
    (hformals : W formals) (hvalues : ∀ v ∈ values, W v) :
    P Unit (bindArguments formals values) (bindArguments formals values) := by
  unfold DynLisp.bindArguments
  split
  · exact h.define hformals (h.values.ofList hvalues)
  · exact h.bindEach (fun _ hformal => h.values.of_mem_items hformals hformal) hvalues

theorem evalBody (h : CongruenceOn W P) (hev : ∀ e, W e → P Value (ev e) (ev' e))
    {body : List Value} (hbody : ∀ e ∈ body, W e) :
    P Value (evalBody ev body) (evalBody ev' body) := by
  induction body with
  | nil => exact h.pure h.values.nil
  | cons e es ih =>
    obtain ⟨he, hes⟩ := List.forall_mem_cons.1 hbody
    cases es with
    | nil => exact hev e he
    | cons e' es => exact h.bind (hev e he) fun _ _ => ih hes

theorem applyProcedure (h : CongruenceOn W P) (hev : ∀ e, W e → P Value (ev e) (ev' e))
    {formals body operands : Value} (hformals : W formals) (hbody : W body)
    (hoperands : W operands) :
    P Value (applyProcedure ev formals body operands)
      (applyProcedure ev' formals body operands) := by
  refine h.bind (h.evalArguments hev formals hoperands) fun values hvalues => h.inCall ?_
  refine h.bind (h.bindArguments hformals hvalues) fun _ _ => ?_
  exact h.evalBody hev fun _ he => h.values.of_mem_items hbody he

/-! ## Special forms -/

theorem evalCondition (h : CongruenceOn W P) (hev : ∀ e, W e → P Value (ev e) (ev' e)) {e : Value}
    (he : W e) : P Bool (evalCondition ev e) (evalCondition ev' e) := by
  refine h.bind (hev e he) fun v _ => ?_
  cases v.toFloat? with
  | some x => exact h.pure trivial
  | none => exact h.throw _

section Forms

variable (h : CongruenceOn W P) (hev : ∀ e, W e → P Value (ev e) (ev' e)) {args : List Value}
  (hargs : ∀ e ∈ args, W e)

include h hargs

theorem runQuote : P Value (runQuote args) (runQuote args) := by
  unfold SpecialForm.runQuote
  split
  · exact h.pure (hargs _ List.mem_cons_self)
  · exact h.throw _

theorem runLambda : P Value (runLambda args) (runLambda args) := by
  unfold SpecialForm.runLambda
  split
  · obtain ⟨hformals, hbody⟩ := List.forall_mem_cons.1 hargs
    exact h.lift fun _ => h.values.makeProcedure hformals hbody
  · exact h.throw _

include hev

theorem runBranch : P Value (runBranch ev args) (runBranch ev' args) := by
  unfold SpecialForm.runBranch
  split
  · simp only [List.forall_mem_cons] at hargs
    refine h.bind (h.evalCondition hev hargs.1) fun b _ => ?_
    cases b
    · exact h.pure h.values.nil
    · exact hev _ hargs.2.1
  · simp only [List.forall_mem_cons] at hargs
    refine h.bind (h.evalCondition hev hargs.1) fun b _ => ?_
    cases b
    · exact hev _ hargs.2.2.1
    · exact hev _ hargs.2.1
  · exact h.throw _

theorem runDefine : P Value (runDefine ev args) (runDefine ev' args) := by
  unfold SpecialForm.runDefine
  split
  · simp only [List.forall_mem_cons] at hargs
    exact h.bind (hev _ hargs.2.1) fun v hv => h.bind (h.define hargs.1 hv) fun _ _ =>
      h.pure h.values.nil
  · exact h.throw _
  · exact h.throw _
  · exact h.throw _

theorem runPrint : P Value (runPrint ev args) (runPrint ev' args) := by
  unfold SpecialForm.runPrint
  split
  · exact h.bind (hev _ (hargs _ List.mem_cons_self)) fun v _ => h.bind (h.writeLine _) fun _ _ =>
      h.pure h.values.nil
  · exact h.throw _

theorem runEval : P Value (runEval ev args) (runEval ev' args) := by
  unfold SpecialForm.runEval
  split
  · exact h.bind (hev _ (hargs _ List.mem_cons_self)) hev
  · exact h.throw _

theorem runApply (happly : ∀ callee operands, W callee → W operands →
    P Value (apply callee operands) (apply' callee operands)) :
    P Value (runApply ev apply args) (runApply ev' apply' args) := by
  unfold SpecialForm.runApply
  split
  · simp only [List.forall_mem_cons] at hargs
    refine h.bind (h.lookup hargs.1) fun callee hcallee => ?_
    refine h.bind (hev _ hargs.2.1) fun operands hoperands => ?_
    exact happly _ _ hcallee (h.values.asOperands hoperands)
  · exact h.throw _
  · exact h.throw _

theorem runLet : P Value (runLet ev args) (runLet ev' args) := by
  unfold SpecialForm.runLet
  split
  · obtain ⟨hbindings, hbody⟩ := List.forall_mem_cons.1 hargs
    refine h.lift_bind fun pairs hpairs => h.lift_bind fun _ _ => ?_
    have hparts := fun p => h.values.of_splitBindings (p := p) hbindings hpairs
    refine h.applyProcedure hev (h.values.ofList ?_) (h.values.ofList hbody) (h.values.ofList ?_)
    · exact List.forall_mem_map.2 fun p hp => (hparts p hp).1
    · exact List.forall_mem_map.2 fun p hp => (hparts p hp).2
  · exact h.throw _

end Forms

section Calls

variable (h : CongruenceOn W P) (hev : ∀ e, W e → P Value (ev e) (ev' e))

include h hev

theorem run (happly : ∀ callee operands, W callee → W operands →
      P Value (apply callee operands) (apply' callee operands))
    (form : SpecialForm) {operands : Value} (hoperands : W operands) :
    P Value (form.run ev apply operands) (form.run ev' apply' operands) := by
  refine h.lift_bind fun args hargs => ?_
  have hall : ∀ e ∈ args, W e := fun _ he => h.values.of_toList hoperands hargs he
  cases form with
  | quote => exact h.runQuote hall
  | branch => exact h.runBranch hev hall
  | define => exact h.runDefine hev hall
  | print => exact h.runPrint hev hall
  | eval => exact h.runEval hev hall
  | lambda => exact h.runLambda hall
  | apply => exact h.runApply hev hall happly
  | letIn => exact h.runLet hev hall

/-! ## Evaluation -/

theorem applyBuiltin (happly : ∀ callee operands, W callee → W operands →
      P Value (apply callee operands) (apply' callee operands))
    (b : Builtin) {operands : Value} (hoperands : W operands) :
    P Value (applyBuiltin ev apply b operands) (applyBuiltin ev' apply' b operands) := by
  refine h.lift_bind fun count _ => ?_
  cases b with
  | primitive op =>
    dsimp only
    split
    · exact h.throw _
    · exact h.bind (h.evalOperands hev hoperands) fun vs hvs =>
        h.lift fun _ => h.values.run_primitive hvs
  | special form =>
    dsimp only
    split
    · exact h.throw _
    · exact h.run hev happly form hoperands

/-- Applications are related if the evaluations inside them are. -/
theorem applyTo {chain chain' : Nat} (hchain : chain ≤ chain') {callee operands : Value}
    (hcallee : W callee) (hoperands : W operands) :
    P Value (applyTo ev chain callee operands) (applyTo ev' chain' callee operands) := by
  induction chain generalizing chain' callee operands with
  | zero => exact h.unfinished _
  | succ chain ih =>
    obtain ⟨chain', rfl⟩ : ∃ n, chain' = n + 1 := ⟨chain' - 1, by omega⟩
    cases callee with
    | symbol name =>
      simp only [DynLisp.applyTo]
      split
      · exact h.applyBuiltin hev (fun _ _ => ih (by omega)) _ hoperands
      · exact h.throw _
    | procedure formals body =>
      obtain ⟨hformals, hbody⟩ := h.values.parts hcallee
      exact h.applyProcedure hev hformals hbody hoperands
    | _ => exact h.throw _

theorem evalExpr {chain chain' : Nat} (hchain : chain ≤ chain') {e : Value} (he : W e) :
    P Value (evalExpr chain ev e) (evalExpr chain' ev' e) := by
  cases e with
  | nil => exact h.throw _
  | symbol name => exact h.lookup he
  | pair head operands =>
    obtain ⟨hhead, hoperands⟩ := h.values.pair_iff.1 he
    exact h.bind (hev head hhead) fun callee hcallee => h.applyTo hev hchain hcallee hoperands
  | _ => exact h.pure he

end Calls

/-- Evaluations are related if they are where the levels on the left run out. -/
theorem eval (h : CongruenceOn W P) {limits limits' : Limits}
    (hchain : limits.maxChain ≤ limits'.maxChain) {k : Nat}
    (hbottom : ∀ e, W e → P Value (eval limits 0 e) (eval limits' k e)) (levels : Nat) {e : Value}
    (he : W e) : P Value (eval limits levels e) (eval limits' (levels + k) e) := by
  induction levels generalizing e with
  | zero => rw [Nat.zero_add]; exact hbottom e he
  | succ levels ih =>
    rw [Nat.add_right_comm]
    exact h.evalExpr (fun _ => ih) hchain he

/-- Every evaluation is related to itself. -/
theorem eval_self (h : CongruenceOn W P) (limits : Limits) (levels : Nat) {e : Value} (he : W e) :
    P Value (DynLisp.eval limits levels e) (DynLisp.eval limits levels e) :=
  h.eval (Nat.le_refl limits.maxChain) (k := 0)
    (fun _ _ => h.throw (.depthLimit limits.maxDepth)) levels he

theorem applyAt_self (h : CongruenceOn W P) (limits : Limits) (depth : Nat)
    {callee operands : Value} (hcallee : W callee) (hoperands : W operands) :
    P Value (limits.applyAt depth callee operands) (limits.applyAt depth callee operands) :=
  h.applyTo (fun _ => h.eval_self limits _) (Nat.le_refl limits.maxChain) hcallee hoperands

end CongruenceOn

/-! ## Relations on all values -/

theorem valueClass_true : ValueClass fun _ => True :=
  ⟨trivial, fun _ => trivial, fun _ => trivial, ⟨fun _ => ⟨trivial, trivial⟩, fun _ => trivial⟩,
    fun _ _ _ => trivial, fun _ => ⟨trivial, trivial⟩⟩

/-- A relation between evaluations that is kept by the operations they are built from. What does
not finish on the left is related to anything. -/
structure Congruence (P : (α : Type) → EvalM α → EvalM α → Prop) : Prop where
  pure : ∀ {α : Type} (a : α), P α (pure a) (pure a)
  throw : ∀ {α : Type} (e : EvalError), P α (throw e) (throw e)
  bind : ∀ {α β : Type} {x y : EvalM α} {f g : α → EvalM β},
    P α x y → (∀ a, P β (f a) (g a)) → P β (x >>= f) (y >>= g)
  lookup : ∀ name, P Value (EvalM.lookup name) (EvalM.lookup name)
  define : ∀ name v, P Unit (EvalM.define name v) (EvalM.define name v)
  writeLine : ∀ pieces, P Unit (EvalM.writeLine pieces) (EvalM.writeLine pieces)
  inCall : ∀ {α : Type} {x y : EvalM α}, P α x y → P α (EvalM.inCall x) (EvalM.inCall y)
  unfinished : ∀ {α : Type} (y : EvalM α), P α EvalM.unfinished y

namespace Congruence

variable {P : (α : Type) → EvalM α → EvalM α → Prop} {ev ev' : Evaluator}

/-- What is kept on all values is kept on the class of all values. -/
theorem onAll (h : Congruence P) : CongruenceOn (fun _ => True) fun α _ x y => P α x y where
  values := valueClass_true
  pure _ := h.pure _
  throw := h.throw
  bind hxy hfg := h.bind hxy fun a => hfg a (Result.allIn_of_forall (fun _ => trivial) a)
  lookup _ := h.lookup _
  define _ _ := h.define _ _
  writeLine := h.writeLine
  inCall := h.inCall
  unfinished := h.unfinished

theorem lift_bind (h : Congruence P) {α β : Type} (r : Except EvalError α) {f g : α → EvalM β}
    (hfg : ∀ a, P β (f a) (g a)) : P β (liftM r >>= f) (liftM r >>= g) := by
  cases r with
  | ok a => exact hfg a
  | error e => exact h.throw e

theorem mapM (h : Congruence P) (hev : ∀ e, P Value (ev e) (ev' e)) (es : List Value) :
    P (List Value) (es.mapM ev) (es.mapM ev') :=
  h.onAll.mapM (fun e _ => hev e) fun _ _ => trivial

theorem bindArguments (h : Congruence P) (formals : Value) (values : List Value) :
    P Unit (bindArguments formals values) (bindArguments formals values) :=
  h.onAll.bindArguments trivial fun _ _ => trivial

theorem evalBody (h : Congruence P) (hev : ∀ e, P Value (ev e) (ev' e)) (body : List Value) :
    P Value (evalBody ev body) (evalBody ev' body) :=
  h.onAll.evalBody (fun e _ => hev e) fun _ _ => trivial

theorem applyTo (h : Congruence P) (hev : ∀ e, P Value (ev e) (ev' e)) {chain chain' : Nat}
    (hchain : chain ≤ chain') (callee operands : Value) :
    P Value (applyTo ev chain callee operands) (applyTo ev' chain' callee operands) :=
  h.onAll.applyTo (fun e _ => hev e) hchain trivial trivial

/-- Evaluations are related if they are where the levels on the left run out. -/
theorem eval (h : Congruence P) {limits limits' : Limits}
    (hchain : limits.maxChain ≤ limits'.maxChain) {k : Nat}
    (hbottom : ∀ e, P Value (eval limits 0 e) (eval limits' k e)) (levels : Nat) (e : Value) :
    P Value (eval limits levels e) (eval limits' (levels + k) e) :=
  h.onAll.eval hchain (fun e _ => hbottom e) levels trivial

/-- Every evaluation is related to itself. -/
theorem eval_self (h : Congruence P) (limits : Limits) (levels : Nat) (e : Value) :
    P Value (DynLisp.eval limits levels e) (DynLisp.eval limits levels e) :=
  h.onAll.eval_self limits levels trivial

theorem applyAt_self (h : Congruence P) (limits : Limits) (depth : Nat) (callee operands : Value) :
    P Value (limits.applyAt depth callee operands) (limits.applyAt depth callee operands) :=
  h.onAll.applyAt_self limits depth trivial trivial

end Congruence

end DynLisp
