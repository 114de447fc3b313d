import DynLisp.Proofs.Evaluation.Procedures
import DynLisp.Proofs.Evaluation.Visibility
import DynLisp.Session

/-!
# Forms that evaluate alike

A procedure can be applied in several ways, and all of them come to the same application:

* `let_and_lambda_are_procedure_calls`: `let`, and the call of what a `lambda` makes, evaluate as the
  call of the procedure does;
* `application_paths_agree`: so do `apply` with a list of operands and the call of what it applies,
  and so does the application that a session is asked for.

What evaluates alike ends alike, with the same result and in the same state, or does not end.
-/

namespace DynLisp

open EvalM Value

/-! ## Calls by what their head means -/

section Heads

variable {limits : Limits} {levels : Nat} {s t : Interp}

theorem eval_symbol (limits : Limits) (levels : Nat) (name : String) (s : Interp) :
    eval limits (levels + 1) (.symbol name) s = some (s.env.lookup name, s) :=
  run_lookup name s

theorem eval_pair_of_ok {head callee : Value} (h : eval limits levels head s = some (.ok callee, t))
    (operands : Value) : eval limits (levels + 1) (.pair head operands) s =
      applyTo (eval limits levels) limits.maxChain callee operands t :=
  Stateful.bind_of_ok h

/-- A name is called as what it means. -/
theorem eval_pair_symbol {name : String} {callee : Value} (h : s.env.lookup name = .ok callee)
    (operands : Value) : eval limits (levels + 2) (.pair (.symbol name) operands) s =
      applyTo (eval limits (levels + 1)) limits.maxChain callee operands s :=
  eval_pair_of_ok (by rw [eval_symbol, h]) operands

end Heads

/-! ## `let` and `lambda` -/

/-- The names that are bound, as formals. -/
def boundNames (pairs : List (String × Value)) : Value :=
  .ofList (pairs.map fun (name, _) => .symbol name)

/-- `(p e₁ … eₙ)`, where `p` is the procedure of the names `x₁` to `xₙ` with the given body. -/
def procedureCall (pairs : List (String × Value)) (body : List Value) : Value :=
  .pair (.procedure (boundNames pairs) (.ofList body)) (.ofList (pairs.map Prod.snd))

/-- `(let ((x₁ e₁) … (xₙ eₙ)) b₁ … bₘ)` -/
def letForm (pairs : List (String × Value)) (body : List Value) : Value :=
  .ofList (.symbol "let" :: .ofList (pairs.map fun (name, e) => .ofList [.symbol name, e]) :: body)

/-- `((lambda (x₁ … xₙ) b₁ … bₘ) e₁ … eₙ)` -/
def lambdaCall (pairs : List (String × Value)) (body : List Value) : Value :=
  .pair (.ofList (.symbol "lambda" :: boundNames pairs :: body)) (.ofList (pairs.map Prod.snd))

theorem splitBindings_ofList (pairs : List (String × Value)) :
    splitBindings (.ofList (pairs.map fun (name, e) => .ofList [.symbol name, e])) = .ok pairs := by
  have hmap : (pairs.map fun (name, e) => Value.ofList [.symbol name, e]).mapM splitBinding =
      .ok pairs := by
    induction pairs with
    | nil => rfl
    | cons p pairs ih =>
      rw [List.map_cons, List.mapM_cons, ih]
      rfl
  unfold splitBindings
  rw [isList_ofList, toList_ofList]
  exact hmap

section Bindings

variable {pairs : List (String × Value)} (hdistinct : (pairs.map Prod.fst).Nodup)

include hdistinct

theorem checkFormals_boundNames : checkFormals (boundNames pairs) = .ok () := by
  have h := checkFormals_of_nodup hdistinct
  rw [List.map_map] at h
  exact h

/-- `let` applies the procedure of its names and body. -/
theorem applyTo_let (ev : Evaluator) (chain : Nat) (b : Value) (bs : List Value) :
    applyTo ev (chain + 1) (.symbol "let") (.ofList
        (.ofList (pairs.map fun (name, e) => .ofList [.symbol name, e]) :: b :: bs)) =
      applyProcedure ev (boundNames pairs) (.ofList (b :: bs)) (.ofList (pairs.map Prod.snd)) := by
  have haccepts : SpecialForm.letIn.arity.accepts (List.length (.ofList
      (pairs.map fun (name, e) => Value.ofList [.symbol name, e]) :: b :: bs)) = true :=
    decide_eq_true (Nat.le_add_left 2 bs.length)
  refine (applyTo_special ev chain haccepts).trans ?_
  rw [run_ofList]
  show (liftM (splitBindings _) >>= fun pairs => liftM (checkFormals (boundNames pairs)) >>= fun _ =>
    applyProcedure ev (boundNames pairs) _ _) = _
  rw [splitBindings_ofList, lift_ok_bind, checkFormals_boundNames hdistinct, lift_ok_bind]

/-- `lambda` makes the procedure of its names and body. -/
theorem applyTo_lambda (ev : Evaluator) (chain : Nat) (b : Value) (bs : List Value) (s : Interp) :
    applyTo ev (chain + 1) (.symbol "lambda") (.ofList (boundNames pairs :: b :: bs)) s =
      some (.ok (.procedure (boundNames pairs) (.ofList (b :: bs))), s) := by
  have haccepts : SpecialForm.lambda.arity.accepts
      (List.length (boundNames pairs :: b :: bs)) = true :=
    decide_eq_true (Nat.le_add_left 2 bs.length)
  refine (congrFun (applyTo_special ev chain haccepts) s).trans ?_
  rw [run_ofList]
  show (liftM (makeProcedure (boundNames pairs) (b :: bs)) : EvalM Value) s = _
  unfold makeProcedure
  rw [checkFormals_boundNames hdistinct]
  rfl

end Bindings

/-- Take distinct names, as many expressions, and a body. Wherever `let` has its meaning, the form
that binds the names to the expressions by `let` evaluates as the call of the procedure of the names
with these operands. So does the call of the `lambda` expression of the procedure, wherever `lambda`
has its meaning and there are levels enough for it. -/
theorem let_and_lambda_are_procedure_calls (limits : Limits) (depth : Nat)
    {pairs : List (String × Value)} (hdistinct : (pairs.map Prod.fst).Nodup) {body : List Value}
    (hbody : body ≠ []) {s : Interp} (hlet : s.env.lookup "let" = .ok (.symbol "let")) :
    limits.evalAt depth (letForm pairs body) s = limits.evalAt depth (procedureCall pairs body) s ∧
      (s.env.lookup "lambda" = .ok (.symbol "lambda") → depth + 2 < limits.maxDepth →
        limits.evalAt depth (lambdaCall pairs body) s =
          limits.evalAt depth (procedureCall pairs body) s) := by
  obtain ⟨b, bs, rfl⟩ := List.exists_cons_of_ne_nil hbody
  have hcall : ∀ levels, eval limits (levels + 2) (procedureCall pairs (b :: bs)) s =
      applyTo (eval limits (levels + 1)) limits.maxChain
        (.procedure (boundNames pairs) (.ofList (b :: bs))) (.ofList (pairs.map Prod.snd)) s :=
    fun levels => eval_pair_of_ok rfl _
  constructor
  · show eval limits (limits.maxDepth - depth) _ s = eval limits (limits.maxDepth - depth) _ s
    match limits.maxDepth - depth with
    -- Without a level for the head, both calls fail alike.
    | 0 | 1 => rfl
    | levels + 2 =>
      rw [hcall, letForm, ofList, ofListTail_cons, eval_pair_symbol hlet]
      cases limits.maxChain with
      | zero => rfl
      | succ chain => exact congrFun (applyTo_let hdistinct _ chain b bs) s
  · intro hlambda hdepth
    obtain ⟨levels, hlevels⟩ : ∃ levels, limits.maxDepth - depth = levels + 3 :=
      ⟨limits.maxDepth - depth - 3, by omega⟩
    show eval limits (limits.maxDepth - depth) _ s = eval limits (limits.maxDepth - depth) _ s
    rw [hlevels, hcall (levels + 1)]
    cases hchain : limits.maxChain with
    | zero =>
      show (eval limits (levels + 2) _ >>= _) s = none
      rw [Stateful.run_bind, ofList, ofListTail_cons, eval_pair_symbol hlambda, hchain]
      rfl
    | succ chain =>
      rw [← hchain]
      refine eval_pair_of_ok ?_ _
      rw [ofList, ofListTail_cons, eval_pair_symbol hlambda, hchain]
      exact applyTo_lambda hdistinct _ chain b bs s

/-- A caller in a frame of its own, over a global frame with the names of some builtins. -/
def callerOfBuiltins (names : List String) : Interp where
  env := {
    global := .ofChain .global (names.map fun name => (name, .symbol name))
    locals := [.call] }

/-- The second name is bound after the first operand has defined `z`; the body defines `w` and then
fails. -/
theorem calls_with_failing_body :
    let pairs := [("x", .ofList [.symbol "define", .symbol "z", .int 2]), ("y", .symbol "z")]
    let body := [.ofList [.symbol "define", .symbol "w", .symbol "y"],
      .ofList [.symbol "car", .symbol "w"]]
    ∃ t, ({} : Limits).evalAt 0 (procedureCall pairs body)
        (callerOfBuiltins ["let", "lambda", "define", "car"]) =
          some (.error (.typeMismatch (.notPair "car" (.int 2))), t) ∧
      ({} : Limits).evalAt 0 (letForm pairs body)
        (callerOfBuiltins ["let", "lambda", "define", "car"]) =
          some (.error (.typeMismatch (.notPair "car" (.int 2))), t) ∧
      ({} : Limits).evalAt 0 (lambdaCall pairs body)
        (callerOfBuiltins ["let", "lambda", "define", "car"]) =
          some (.error (.typeMismatch (.notPair "car" (.int 2))), t) := by
  intro pairs body
  have hends : (({} : Limits).evalAt 0 (procedureCall pairs body)
      (callerOfBuiltins ["let", "lambda", "define", "car"])).map Prod.fst =
        some (.error (.typeMismatch (.notPair "car" (.int 2)))) := by
    decide +kernel
  obtain ⟨t, h⟩ := Stateful.exists_of_result hends
  have hdistinct : (pairs.map Prod.fst).Nodup := by decide
  have hlet : (callerOfBuiltins ["let", "lambda", "define", "car"]).env.lookup "let" =
      .ok (.symbol "let") := by decide +kernel
  have hlambda : (callerOfBuiltins ["let", "lambda", "define", "car"]).env.lookup "lambda" =
      .ok (.symbol "lambda") := by decide +kernel
  obtain ⟨hform, hcall⟩ := let_and_lambda_are_procedure_calls {} 0 hdistinct
    (List.cons_ne_nil _ _ : body ≠ []) hlet
  exact ⟨t, h, hform.trans h, (hcall hlambda (by decide)).trans h⟩

/-! ## `apply` -/

/-- `(quote v)` -/
def quoteForm (v : Value) : Value := .ofList [.symbol "quote", v]

/-- `(apply f (quote v))` -/
def applyForm (name : String) (v : Value) : Value :=
  .ofList [.symbol "apply", .symbol name, quoteForm v]

/-- `(head . v)` for a list, which need not be proper, and `(head v)` for any other value. -/
def callWith (head : Value) : Value → Value
  | .nil => .pair head .nil
  | .pair v w => .pair head (.pair v w)
  | v => .ofList [head, v]

theorem callWith_eq (head v : Value) : callWith head v = .pair head (asOperands v) := by
  cases v <;> rfl

/-- `quote` gives its operand, and needs one application for it. -/
theorem eval_quoteForm {limits : Limits} {s : Interp}
    (hquote : s.env.lookup "quote" = .ok (.symbol "quote")) (levels : Nat) (v : Value) :
    eval limits (levels + 2) (quoteForm v) s =
      if limits.maxChain = 0 then none else some (.ok v, s) := by
  have haccepts : SpecialForm.quote.arity.accepts (List.length [v]) = true := rfl
  rw [quoteForm, ofList, ofListTail_cons, eval_pair_symbol hquote]
  cases limits.maxChain with
  | zero => rfl
  | succ chain =>
    refine (congrFun (applyTo_special _ chain haccepts) s).trans ?_
    rw [run_ofList]
    rfl

section Apply

variable {maxDepth levels : Nat} {s t : Interp} {r : Except EvalError Value}

/-- A call ends as the application of what its head means. -/
theorem yields_eval_pair {head callee : Value} (h : Evaluates maxDepth levels head s callee s)
    (operands : Value) : (evalIn maxDepth (levels + 1) (.pair head operands)).Yields s r t ↔
      (applyIn maxDepth levels callee operands).Yields s r t :=
  Chained.yields_bind (stable_evalIn maxDepth levels head)
    (fun callee => stable_applyIn maxDepth levels callee operands) h

/-- `apply` with a quoted list of operands ends as the call with these operands does. -/
theorem yields_applyForm (happly : s.env.lookup "apply" = .ok (.symbol "apply"))
    (hquote : s.env.lookup "quote" = .ok (.symbol "quote")) (name : String) (v : Value) :
    (evalIn maxDepth (levels + 3) (applyForm name v)).Yields s r t ↔
      (evalIn maxDepth (levels + 3) (callWith (.symbol name) v)).Yields s r t := by
  have hhead : Evaluates maxDepth (levels + 2) (.symbol "apply") s (.symbol "apply") s :=
    ⟨0, by rw [evalIn, eval_symbol, happly]⟩
  have hoperands : Evaluates maxDepth (levels + 2) (quoteForm v) s v s :=
    ⟨1, eval_quoteForm hquote levels v⟩
  have haccepts : SpecialForm.apply.arity.accepts
      (List.length [.symbol name, quoteForm v]) = true := rfl
  calc
    _ ↔ (applyIn maxDepth (levels + 2) (.symbol SpecialForm.apply.name)
          (.ofList [.symbol name, quoteForm v])).Yields s r t := yields_eval_pair hhead _
    _ ↔ Chained.Yields (fun chain => lookup name >>= fun callee =>
          evalIn maxDepth (levels + 2) (quoteForm v) chain >>= fun w =>
            applyIn maxDepth (levels + 2) callee (asOperands w) chain) s r t := by
        rw [yields_applyIn]
        simp only [applyTo_special _ _ haccepts, run_ofList]
        rfl
    _ ↔ Chained.Yields (fun chain => lookup name >>= fun callee =>
          applyIn maxDepth (levels + 2) callee (asOperands v) chain) s r t :=
        Chained.yields_lookup_bind_congr fun callee _ =>
          Chained.yields_bind (stable_evalIn maxDepth _ _)
            (fun w => stable_applyIn maxDepth _ callee (asOperands w)) hoperands
    _ ↔ _ := by
        rw [callWith_eq]
        rfl

end Apply

/-- An application of a value to a list of operands is the call of the value quoted. -/
theorem applyAt_eq_evalAt_quoteForm {limits : Limits} {s : Interp}
    (hquote : s.env.lookup "quote" = .ok (.symbol "quote")) (hdepth : 2 < limits.maxDepth)
    (p v : Value) : limits.applyAt 0 p (asOperands v) s =
      limits.evalAt 0 (callWith (quoteForm p) v) s := by
  obtain ⟨levels, hlevels⟩ : ∃ levels, limits.maxDepth = levels + 3 :=
    ⟨limits.maxDepth - 3, by omega⟩
  have hhead : eval limits (levels + 2) (quoteForm p) s =
      if limits.maxChain = 0 then none else some (.ok p, s) := eval_quoteForm hquote levels p
  show applyTo (eval limits (limits.maxDepth - 1)) limits.maxChain p (asOperands v) s =
    eval limits limits.maxDepth (callWith (quoteForm p) v) s
  rw [callWith_eq, hlevels]
  cases hchain : limits.maxChain with
  | zero =>
    rw [hchain, if_pos rfl] at hhead
    show none = (eval limits (levels + 2) (quoteForm p) >>= _) s
    rw [Stateful.run_bind, hhead]
    rfl
  | succ chain =>
    rw [hchain, if_neg (Nat.succ_ne_zero chain)] at hhead
    rw [eval_pair_of_ok hhead, hchain]
    rfl

/-- Take a session in which `apply` and `quote` have their meaning, and any value `v`. For every
name, whatever it means, `apply` with the name and `v` quoted ends as the call of the name does that
has `v` as the list of its operands, or as its only operand if `v` is no list: if the one ends, so
does the other, with the same result and in the same state. And the application of any value to `v`
in the session is the evaluation of the call that has the value quoted as its head. -/
theorem application_paths_agree {s : Session}
    (happly : s.interp.env.lookup "apply" = .ok (.symbol "apply"))
    (hquote : s.interp.env.lookup "quote" = .ok (.symbol "quote")) (v : Value) :
    (∀ name depth, depth + 2 < s.limits.maxDepth → ∀ r t,
      (∃ maxChain, { s.limits with maxChain }.evalAt depth (applyForm name v) s.interp =
        some (r, t)) ↔
      ∃ maxChain, { s.limits with maxChain }.evalAt depth (callWith (.symbol name) v) s.interp =
        some (r, t)) ∧
    (2 < s.limits.maxDepth → ∀ p,
      Session.apply p v s = Session.eval (callWith (quoteForm p) v) s) := by
  constructor
  · intro name depth hdepth r t
    obtain ⟨levels, hlevels⟩ : ∃ levels, s.limits.maxDepth - depth = levels + 3 :=
      ⟨s.limits.maxDepth - depth - 3, by omega⟩
    show (evalIn s.limits.maxDepth (s.limits.maxDepth - depth) _).Yields s.interp r t ↔
      (evalIn s.limits.maxDepth (s.limits.maxDepth - depth) _).Yields s.interp r t
    rw [hlevels]
    exact yields_applyForm happly hquote name v
  · intro hdepth p
    show (s.limits.applyAt 0 p (asOperands v) s.interp >>= _) = (s.limits.evalAt 0 _ s.interp >>= _)
    rw [applyAt_eq_evalAt_quoteForm hquote hdepth]

/-- `car` of an improper list of operands, which is refused in all ways alike. -/
theorem applications_to_improper_list :
    let s : Session := { interp := callerOfBuiltins ["apply", "quote", "car"] }
    let v := Value.pair (.int 1) (.int 2)
    ∃ t, s.limits.evalAt 0 (applyForm "car" v) s.interp =
        some (.error (.typeMismatch (.notProperList v)), t) ∧
      (∃ maxChain, { s.limits with maxChain }.evalAt 0 (callWith (.symbol "car") v) s.interp =
        some (.error (.typeMismatch (.notProperList v)), t)) ∧
      ∃ s', Session.apply (.symbol "car") v s =
          some (.error (.eval (.typeMismatch (.notProperList v))), s') ∧
        Session.eval (callWith (quoteForm (.symbol "car")) v) s =
          some (.error (.eval (.typeMismatch (.notProperList v))), s') := by
  intro s v
  have happly : s.interp.env.lookup "apply" = .ok (.symbol "apply") := by decide +kernel
  have hquote : s.interp.env.lookup "quote" = .ok (.symbol "quote") := by decide +kernel
  obtain ⟨hforms, hsession⟩ := application_paths_agree happly hquote v
  have hends : (s.limits.evalAt 0 (applyForm "car" v) s.interp).map Prod.fst =
      some (.error (.typeMismatch (.notProperList v))) := by decide +kernel
  have hserved : (Session.apply (.symbol "car") v s).map Prod.fst =
      some (.error (.eval (.typeMismatch (.notProperList v)))) := by decide +kernel
  obtain ⟨t, h⟩ := Stateful.exists_of_result hends
  obtain ⟨s', h'⟩ := Stateful.exists_of_result hserved
  have hdepth : 0 + 2 < s.limits.maxDepth := by decide
  exact ⟨t, h, (hforms "car" 0 hdepth _ t).1 ⟨_, h⟩, s', h',
    (hsession hdepth (.symbol "car")).symm.trans h'⟩

end DynLisp
