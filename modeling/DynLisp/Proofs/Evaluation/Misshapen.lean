import DynLisp.Proofs.Evaluation.Equivalences

/-!
# Calls that are refused for their shape

The operands of a call may be refused as they stand: they are no proper list, there are too few or
too many, or what a special form binds is not what can be bound (`Misshapen`). Such a call fails
before anything in it but its head is evaluated (`misshapen_call_evaluates_nothing`). What is wrong
with formals and with the bindings of `let` is told by the first fault in them:

* `toList_eq_error_iff`: a value that is no proper list;
* `checkFormals_eq_error_iff`: formals that are no list of distinct symbols, and these are all that
  cannot be bound (`exists_formalsFault_iff`);
* `checkBindings_eq_error_iff`: bindings that are no list of pairs of a name and an expression, with
  distinct names.
-/

namespace DynLisp

open EvalM Value

/-! ## Lists -/

/-- The complaint about a value that is no proper list. -/
inductive ListFault (v : Value) : EvalError → Prop where
  | notList : v.isList = false → ListFault v (.typeMismatch (.notList v))
  | improper : v.isList = true → v.rest ≠ .nil → ListFault v (.typeMismatch (.notProperList v))

theorem isProperList_eq_false_iff {v : Value} : v.isProperList = false ↔ v.rest ≠ .nil := by
  unfold isProperList
  cases v.rest <;> simp [isNil]

theorem toList_eq_error_iff {v : Value} {e : EvalError} : v.toList = .error e ↔ ListFault v e := by
  unfold Value.toList
  constructor
  · intro h
    split at h
    · rename_i hlist
      cases h
      exact .notList (by simpa using hlist)
    · rename_i hlist
      split at h
      · cases h
      · rename_i hproper
        cases h
        exact .improper (by simpa using hlist)
          (isProperList_eq_false_iff.1 (Bool.eq_false_iff.2 hproper))
  · intro h
    cases h with
    | notList hlist => simp [hlist]
    | improper hlist hrest => simp [hlist, isProperList_eq_false_iff.2 hrest]

theorem improper_of_toList_error {v : Value} {e : EvalError} (hlist : v.isList = true)
    (h : v.toList = .error e) : v.rest ≠ .nil ∧ e = .typeMismatch (.notProperList v) := by
  cases toList_eq_error_iff.1 h with
  | notList hnone => cases hnone.symm.trans hlist
  | improper _ hrest => exact ⟨hrest, rfl⟩

/-! ## Formals -/

/-- The complaint about formals: they are neither a symbol nor a list, or an improper one, or the
first element at fault is no symbol or one that came before. -/
inductive FormalsFault : Value → EvalError → Prop where
  | notList {v : Value} : (∀ name, v ≠ .symbol name) → v.isList = false →
      FormalsFault v (.typeMismatch (.formals v))
  | improper {v : Value} : v.isList = true → v.rest ≠ .nil →
      FormalsFault v (.typeMismatch (.notProperList v))
  | notSymbol {names : List String} {v : Value} {others : List Value} : names.Nodup →
      (∀ name, v ≠ .symbol name) →
      FormalsFault (.ofList (names.map .symbol ++ v :: others)) (.typeMismatch (.parameter v))
  | repeated {names : List String} {name : String} {others : List Value} : names.Nodup →
      name ∈ names →
      FormalsFault (.ofList (names.map .symbol ++ .symbol name :: others)) (.duplicate name)

theorem checkDistinct_not_symbol {v : Value} (h : ∀ name, v ≠ .symbol name) (seen : List String)
    (others : List Value) :
    checkDistinct seen (v :: others) = .error (.typeMismatch (.parameter v)) := by
  cases v with
  | symbol name => exact (h name rfl).elim
  | _ => rfl

/-- The symbols up to the first fault are distinct. -/
theorem exists_of_checkDistinct_eq_error {seen : List String} {formals : List Value}
    {e : EvalError} (h : checkDistinct seen formals = .error e) :
    ∃ (names : List String) (v : Value) (others : List Value),
      formals = names.map .symbol ++ v :: others ∧ names.Nodup ∧ (∀ name ∈ names, name ∉ seen) ∧
        ((∀ name, v ≠ .symbol name) ∧ e = .typeMismatch (.parameter v) ∨
          ∃ name, v = .symbol name ∧ (name ∈ names ∨ name ∈ seen) ∧ e = .duplicate name) := by
  induction formals generalizing seen with
  | nil => cases h
  | cons formal formals ih =>
    cases formal with
    | symbol name =>
      unfold checkDistinct at h
      split at h
      · rename_i hseen
        cases h
        exact ⟨[], .symbol name, formals, rfl, .nil, List.forall_mem_nil _,
          .inr ⟨name, rfl, .inr (List.contains_iff_mem.1 hseen), rfl⟩⟩
      · rename_i hseen
        obtain ⟨names, v, others, rfl, hnodup, hnew, hfault⟩ := ih h
        have hname : name ∉ names := fun hmem => hnew name hmem List.mem_cons_self
        refine ⟨name :: names, v, others, rfl, List.nodup_cons.2 ⟨hname, hnodup⟩, ?_, ?_⟩
        · refine List.forall_mem_cons.2 ⟨fun hmem => hseen (List.contains_iff_mem.2 hmem), ?_⟩
          exact fun name' hmem hmem' => hnew name' hmem (List.mem_cons_of_mem _ hmem')
        · refine hfault.imp_right ?_
          rintro ⟨name', hv, hmem, he⟩
          refine ⟨name', hv, ?_, he⟩
          rcases hmem with hmem | hmem
          · exact .inl (List.mem_cons_of_mem _ hmem)
          · rcases List.mem_cons.1 hmem with rfl | hmem
            · exact .inl List.mem_cons_self
            · exact .inr hmem
    | _ =>
      cases h
      refine ⟨[], _, formals, rfl, .nil, List.forall_mem_nil _, .inl ⟨?_, rfl⟩⟩
      rintro name ⟨⟩

/-- What is refused as formals has a fault. -/
theorem FormalsFault.of_checkFormals {formals : Value} {e : EvalError}
    (h : checkFormals formals = .error e) : FormalsFault formals e := by
  have hsymbol : ∀ name, formals ≠ .symbol name := by
    rintro name rfl
    cases h
  rw [checkFormals_of_not_symbol hsymbol] at h
  cases hlist : formals.isList with
  | false =>
    rw [hlist] at h
    cases h
    exact .notList hsymbol hlist
  | true =>
    rw [hlist] at h
    rcases error_of_bind_eq_error h with herror | ⟨items, hitems, hdistinct⟩
    · obtain ⟨hrest, rfl⟩ := improper_of_toList_error hlist herror
      exact .improper hlist hrest
    · obtain rfl := toList_eq_ok_iff.1 hitems
      obtain ⟨names, v, others, rfl, hnodup, -, ⟨hv, rfl⟩ | ⟨name, rfl, hmem, rfl⟩⟩ :=
        exists_of_checkDistinct_eq_error hdistinct
      · exact .notSymbol hnodup hv
      · exact .repeated hnodup (hmem.resolve_right List.not_mem_nil)

/-- Formals are refused exactly for a fault in them. -/
theorem checkFormals_eq_error_iff {formals : Value} {e : EvalError} :
    checkFormals formals = .error e ↔ FormalsFault formals e := by
  refine ⟨.of_checkFormals, fun h => ?_⟩
  cases h with
  | notList hsymbol hlist =>
    rw [checkFormals_of_not_symbol hsymbol, hlist]
    rfl
  | improper hlist hrest =>
    have hsymbol : ∀ name, formals ≠ .symbol name := by
      rintro name rfl
      cases hlist
    rw [checkFormals_of_not_symbol hsymbol, hlist, toList_eq_error_iff.2 (.improper hlist hrest)]
    rfl
  | notSymbol hnodup hv =>
    rw [checkFormals_ofList, checkDistinct_append hnodup fun _ _ => List.not_mem_nil,
      checkDistinct_not_symbol hv]
  | repeated hnodup hmem =>
    rw [checkFormals_ofList, checkDistinct_append hnodup fun _ _ => List.not_mem_nil,
      checkDistinct, if_pos (List.contains_iff_mem.2 (by simpa using hmem))]

/-- Formals without a fault are those that can be bound. -/
theorem exists_formalsFault_iff {formals : Value} :
    (∃ e, FormalsFault formals e) ↔ ¬ ValidFormals formals := by
  constructor
  · rintro ⟨e, hfault⟩ hvalid
    have herror := checkFormals_eq_error_iff.2 hfault
    cases hvalid with
    | all name => cases herror
    | each hnodup => cases herror.symm.trans (checkFormals_of_nodup hnodup)
  · intro hvalid
    cases hcheck : checkFormals formals with
    | ok _ => exact (hvalid (validFormals_of_checkFormals hcheck)).elim
    | error e => exact ⟨e, checkFormals_eq_error_iff.1 hcheck⟩

/-! ## Bindings -/

/-- `(x e)` -/
def bindingForm : String × Value → Value
  | (name, e) => .ofList [.symbol name, e]

/-- What `let` checks of its bindings. -/
def checkBindings (bindings : Value) : Except EvalError Unit := do
  checkFormals (boundNames (← splitBindings bindings))

/-- The complaint about the bindings of `let`: they are no proper list, or the first element at
fault is no pair of a name and an expression. If there is none, it is about the first name that came
before. -/
inductive BindingsFault : Value → EvalError → Prop where
  | notList {v : Value} : v.isList = false → BindingsFault v (.typeMismatch (.letBindings v))
  | improper {v : Value} : v.isList = true → v.rest ≠ .nil →
      BindingsFault v (.typeMismatch (.notProperList v))
  | notBinding {pairs : List (String × Value)} {v : Value} {others : List Value} :
      (∀ p, v ≠ bindingForm p) →
      BindingsFault (.ofList (pairs.map bindingForm ++ v :: others))
        (.typeMismatch (.letBinding v))
  | repeated {pairs others : List (String × Value)} {name : String} {e : Value} :
      (pairs.map Prod.fst).Nodup → name ∈ pairs.map Prod.fst →
      BindingsFault (.ofList ((pairs ++ (name, e) :: others).map bindingForm)) (.duplicate name)

theorem splitBinding_eq_ok_iff {v : Value} {p : String × Value} :
    splitBinding v = .ok p ↔ v = bindingForm p := by
  constructor
  · intro h
    exact toList_eq_ok_iff.1 (ValueClass.splitBinding_eq_ok h)
  · rintro rfl
    rfl

theorem splitBinding_eq_error_iff {v : Value} {e : EvalError} :
    splitBinding v = .error e ↔ (∀ p, v ≠ bindingForm p) ∧ e = .typeMismatch (.letBinding v) := by
  have herror : ∀ e, splitBinding v = .error e → e = .typeMismatch (.letBinding v) := by
    intro e h
    unfold splitBinding at h
    split at h <;> cases h
    rfl
  constructor
  · refine fun h => ⟨fun p hp => ?_, herror e h⟩
    rw [splitBinding_eq_ok_iff.2 hp] at h
    cases h
  · rintro ⟨hv, rfl⟩
    cases h : splitBinding v with
    | ok p => exact (hv p (splitBinding_eq_ok_iff.1 h)).elim
    | error e => rw [herror e h]

theorem splitBindings_of_isList {v : Value} (h : v.isList = true) :
    splitBindings v = v.toList >>= (·.mapM splitBinding) := by
  unfold splitBindings
  rw [h]
  rfl

theorem mapM_splitBinding_eq_ok_iff {vs : List Value} {pairs : List (String × Value)} :
    vs.mapM splitBinding = .ok pairs ↔ vs = pairs.map bindingForm := by
  constructor
  · intro h
    induction vs generalizing pairs with
    | nil =>
      cases h
      rfl
    | cons v vs ih =>
      rw [List.mapM_cons] at h
      obtain ⟨p, hp, h⟩ := exists_of_bind_eq_ok h
      obtain ⟨others, hothers, h⟩ := exists_of_bind_eq_ok h
      cases h
      rw [List.map_cons, ← splitBinding_eq_ok_iff.1 hp, ← ih hothers]
  · rintro rfl
    have h := splitBindings_ofList pairs
    rw [splitBindings_of_isList (isList_ofList _), toList_ofList] at h
    exact h

theorem splitBindings_eq_ok_iff {v : Value} {pairs : List (String × Value)} :
    splitBindings v = .ok pairs ↔ v = .ofList (pairs.map bindingForm) := by
  constructor
  · intro h
    have hlist : v.isList = true := by
      by_contra hlist
      unfold splitBindings at h
      rw [Bool.eq_false_iff.2 hlist] at h
      cases h
    rw [splitBindings_of_isList hlist] at h
    obtain ⟨vs, hvs, hsplit⟩ := exists_of_bind_eq_ok h
    rw [toList_eq_ok_iff.1 hvs, mapM_splitBinding_eq_ok_iff.1 hsplit]
  · rintro rfl
    exact splitBindings_ofList pairs

/-- What is not split has a fault. -/
theorem BindingsFault.of_splitBindings {v : Value} {e : EvalError}
    (h : splitBindings v = .error e) : BindingsFault v e := by
  cases hlist : v.isList with
  | false =>
    unfold splitBindings at h
    rw [hlist] at h
    cases h
    exact .notList hlist
  | true =>
    rw [splitBindings_of_isList hlist] at h
    rcases error_of_bind_eq_error h with herror | ⟨vs, hvs, hsplit⟩
    · obtain ⟨hrest, rfl⟩ := improper_of_toList_error hlist herror
      exact .improper hlist hrest
    · obtain rfl := toList_eq_ok_iff.1 hvs
      obtain ⟨before, v, others, pairs, rfl, hbefore, hfault⟩ := exists_first_of_mapM_eq_error hsplit
      obtain rfl := mapM_splitBinding_eq_ok_iff.1 hbefore
      obtain ⟨hv, rfl⟩ := splitBinding_eq_error_iff.1 hfault
      exact .notBinding hv

theorem checkFormals_boundNames_eq (pairs : List (String × Value)) :
    checkFormals (boundNames pairs) = checkDistinct [] ((pairs.map Prod.fst).map .symbol) := by
  rw [boundNames, checkFormals_ofList, List.map_map]
  rfl

/-- Names that are refused as formals are symbols, so one of them came before. -/
theorem BindingsFault.of_boundNames {pairs : List (String × Value)} {e : EvalError}
    (h : checkFormals (boundNames pairs) = .error e) :
    BindingsFault (.ofList (pairs.map bindingForm)) e := by
  rw [checkFormals_boundNames_eq] at h
  obtain ⟨names, v, others, hnames, hnodup, -, hfault⟩ := exists_of_checkDistinct_eq_error h
  have hinjective : Function.Injective Value.symbol := fun _ _ h => Value.symbol.inj h
  obtain ⟨first, rest, hfirst, hsymbols, hrest⟩ := List.map_eq_append_iff.1 hnames
  obtain rfl := List.map_injective_iff.2 hinjective hsymbols
  obtain ⟨name, last, rfl, rfl, rfl⟩ := List.map_eq_cons_iff.1 hrest
  obtain ⟨before, after, rfl, rfl, hafter⟩ := List.map_eq_append_iff.1 hfirst
  obtain ⟨⟨_, expression⟩, after, rfl, rfl, -⟩ := List.map_eq_cons_iff.1 hafter
  rcases hfault with ⟨hv, -⟩ | ⟨_, ⟨⟩, hmem, rfl⟩
  · exact (hv _ rfl).elim
  · exact .repeated hnodup (hmem.resolve_right List.not_mem_nil)

/-- Bindings are refused exactly for a fault in them. -/
theorem checkBindings_eq_error_iff {bindings : Value} {e : EvalError} :
    checkBindings bindings = .error e ↔ BindingsFault bindings e := by
  unfold checkBindings
  constructor
  · intro h
    rcases error_of_bind_eq_error h with h | ⟨pairs, hpairs, h⟩
    · exact .of_splitBindings h
    · rw [splitBindings_eq_ok_iff.1 hpairs]
      exact .of_boundNames h
  · intro h
    cases h with
    | notList hlist =>
      unfold splitBindings
      rw [hlist]
      rfl
    | improper hlist hrest =>
      rw [splitBindings_of_isList hlist, toList_eq_error_iff.2 (.improper hlist hrest)]
      rfl
    | notBinding hv =>
      rw [splitBindings_of_isList (isList_ofList _), toList_ofList]
      show (List.mapM _ _ >>= _) = _
      rw [List.mapM_append, mapM_splitBinding_eq_ok_iff.2 rfl, List.mapM_cons,
        splitBinding_eq_error_iff.2 ⟨hv, rfl⟩]
      rfl
    | repeated hnodup hmem =>
      rw [splitBindings_eq_ok_iff.2 rfl]
      show checkFormals (boundNames _) = _
      rw [checkFormals_boundNames_eq, List.map_append, List.map_append,
        checkDistinct_append hnodup fun _ _ => List.not_mem_nil, List.map_cons, List.map_cons,
        checkDistinct, if_pos (List.contains_iff_mem.2 (by simpa using hmem))]

/-! ## Calls -/

/-- A callee, operands that it refuses as they stand, and the error. -/
inductive Misshapen : (callee operands : Value) → EvalError → Prop where
  | builtinOperands (b : Builtin) {operands : Value} {e : EvalError} : ListFault operands e →
      Misshapen (.symbol b.name) operands e
  | builtinCount (b : Builtin) {es : List Value} : b.arity.accepts es.length = false →
      Misshapen (.symbol b.name) (.ofList es)
        (.arity b.arity es.length (some (Value.pair (.symbol b.name) (.ofList es)).display))
  /-- The formals are neither a symbol nor a proper list, so they cannot be counted. -/
  | procedureFormals {formals body operands : Value} {e : EvalError} :
      (∀ name, formals ≠ .symbol name) → ListFault formals e →
      Misshapen (.procedure formals body) operands e
  | procedureOperands {formals body operands : Value} {count : Nat} {e : EvalError} :
      Takes formals count → ListFault operands e → Misshapen (.procedure formals body) operands e
  | procedureCount {formals es : List Value} {body : Value} : formals.length ≠ es.length →
      Misshapen (.procedure (.ofList formals) body) (.ofList es)
        (.operandCount (.exactly formals.length) es.length)
  | definedEmptyList {e : Value} :
      Misshapen (.symbol "define") (.ofList [.nil, e]) (.typeMismatch .definedEmptyList)
  | definitionTarget {target e : Value} : target ≠ .nil → (∀ name, target ≠ .symbol name) →
      Misshapen (.symbol "define") (.ofList [target, e]) (.typeMismatch (.definitionTarget target))
  | applyTarget {target e : Value} : (∀ name, target ≠ .symbol name) →
      Misshapen (.symbol "apply") (.ofList [target, e]) (.notApplicable (.notName target))
  | lambdaFormals {formals b : Value} {bs : List Value} {e : EvalError} : FormalsFault formals e →
      Misshapen (.symbol "lambda") (.ofList (formals :: b :: bs)) e
  | letBindings {bindings b : Value} {bs : List Value} {e : EvalError} : BindingsFault bindings e →
      Misshapen (.symbol "let") (.ofList (bindings :: b :: bs)) e

namespace SpecialForm

variable (ev : Evaluator) (apply : Value → Value → EvalM Value) {target e b : Value}
  {bs : List Value} {fault : EvalError}

theorem runDefine_of_not_symbol (hnil : target ≠ .nil) (h : ∀ name, target ≠ .symbol name) :
    runDefine ev [target, e] = throw (.typeMismatch (.definitionTarget target)) := by
  cases target with
  | nil => exact (hnil rfl).elim
  | symbol name => exact (h name rfl).elim
  | _ => rfl

theorem runApply_of_not_symbol (h : ∀ name, target ≠ .symbol name) :
    runApply ev apply [target, e] = throw (.notApplicable (.notName target)) := by
  cases target with
  | symbol name => exact (h name rfl).elim
  | _ => rfl

theorem runLambda_of_fault {formals : Value} (h : FormalsFault formals fault) :
    runLambda (formals :: b :: bs) = throw fault := by
  show (liftM (makeProcedure formals (b :: bs)) : EvalM Value) = _
  unfold makeProcedure
  rw [checkFormals_eq_error_iff.2 h]
  rfl

theorem runLet_of_fault {bindings : Value} (h : BindingsFault bindings fault) :
    runLet ev (bindings :: b :: bs) = throw fault := by
  show (liftM (splitBindings bindings) >>= fun pairs =>
    liftM (checkFormals (boundNames pairs)) >>= fun _ =>
      applyProcedure ev (boundNames pairs) (.ofList (b :: bs)) (.ofList (pairs.map Prod.snd))) = _
  have hcheck := checkBindings_eq_error_iff.2 h
  rcases error_of_bind_eq_error hcheck with hsplit | ⟨pairs, hpairs, hnames⟩
  · rw [hsplit]
    rfl
  · rw [hpairs, lift_ok_bind, hnames]
    rfl

end SpecialForm

/-- What is misshapen is refused whatever the evaluation of expressions would do. -/
theorem Misshapen.applyTo_eq {callee operands : Value} {e : EvalError}
    (h : Misshapen callee operands e) (ev : Evaluator) (chain : Nat) :
    applyTo ev (chain + 1) callee operands = throw e := by
  have hspecial : ∀ (form : SpecialForm) (es : List Value), form.arity.accepts es.length = true →
      form.run ev (applyTo ev chain) (.ofList es) = throw e →
        applyTo ev (chain + 1) (.symbol form.name) (.ofList es) = throw e :=
    fun form es haccepts hrun => (applyTo_special ev chain haccepts).trans hrun
  have hatLeastTwo : ∀ v b : Value, ∀ bs, (Arity.atLeast 2).accepts (v :: b :: bs).length = true :=
    fun _ _ bs => decide_eq_true (Nat.le_add_left 2 bs.length)
  cases h with
  | builtinOperands b hfault =>
    rw [applyTo_builtin, applyBuiltin_of_toList_error _ _ _ (toList_eq_error_iff.2 hfault)]
  | builtinCount b hcount => rw [applyTo_builtin, applyBuiltin_of_not_accepts _ _ hcount]
  | procedureFormals hformals hfault =>
    show applyProcedure ev _ _ _ = _
    have hlength := length_of_toList_error (toList_eq_error_iff.2 hfault)
    rw [applyProcedure, evalArguments_of_formals_error ev hformals hlength]
    rfl
  | procedureOperands htakes hfault =>
    show applyProcedure ev _ _ _ = _
    rw [applyProcedure, evalArguments_of_toList_error ev htakes (toList_eq_error_iff.2 hfault)]
    rfl
  | procedureCount hne =>
    show applyProcedure ev _ _ _ = _
    rw [applyProcedure, evalArguments_of_ne ev (ofList_ne_symbol _) (length_ofList _) hne]
    rfl
  | definedEmptyList => exact hspecial .define _ rfl (run_ofList ..)
  | definitionTarget hnil htarget =>
    refine hspecial .define _ rfl ?_
    rw [run_ofList]
    exact SpecialForm.runDefine_of_not_symbol ev hnil htarget
  | applyTarget htarget =>
    refine hspecial .apply _ rfl ?_
    rw [run_ofList]
    exact SpecialForm.runApply_of_not_symbol ev _ htarget
  | lambdaFormals hfault =>
    refine hspecial .lambda _ (hatLeastTwo ..) ?_
    rw [run_ofList]
    exact SpecialForm.runLambda_of_fault hfault
  | letBindings hfault =>
    refine hspecial .letIn _ (hatLeastTwo ..) ?_
    rw [run_ofList]
    exact SpecialForm.runLet_of_fault ev hfault

/-- Take a call whose head is evaluated, in any state, and operands that the callee refuses for
their shape. Then the call fails with the error that tells what is wrong with the shape, in the
state in which the evaluation of the head ended: no definition is made and nothing is printed after
that. Nothing else is evaluated at all, for the application is this error however expressions would
be evaluated. (A call is only left unfinished if no application is allowed in the first place.) -/
theorem misshapen_call_evaluates_nothing {limits : Limits} {depth : Nat}
    {head callee operands : Value} {s t : Interp} {e : EvalError} (hchain : 0 < limits.maxChain)
    (hhead : limits.evalAt (depth + 1) head s = some (.ok callee, t))
    (hshape : Misshapen callee operands e) :
    limits.evalAt depth (.pair head operands) s = some (.error e, t) ∧
      ∀ ev chain, applyTo ev (chain + 1) callee operands = throw e := by
  refine ⟨?_, hshape.applyTo_eq⟩
  have hdepth : depth + 1 < limits.maxDepth := by
    by_contra hle
    have hnone : limits.maxDepth - (depth + 1) = 0 := by omega
    rw [Limits.evalAt, hnone] at hhead
    cases hhead
  have hlevels : limits.maxDepth - depth = limits.maxDepth - (depth + 1) + 1 := by omega
  obtain ⟨chain, hsucc⟩ := Nat.exists_eq_succ_of_ne_zero (Nat.ne_of_gt hchain)
  show eval limits (limits.maxDepth - depth) _ s = _
  rw [hlevels, eval_pair_of_ok hhead, hsucc, hshape.applyTo_eq]
  rfl

/-- The head prints a number and is then `let`. Of the two bindings of `x` the one would define `z`,
the other print it. -/
theorem repeated_name_after_printing_head :
    let s := callerOfBuiltins ["lambda", "print", "define", "let"]
    let head := Value.ofList [.ofList [.symbol "lambda", .nil,
      .ofList [.symbol "print", .int 7], .symbol "let"]]
    let first := ("x", Value.ofList [.symbol "define", .symbol "z", .int 1])
    let second := ("x", Value.ofList [.symbol "print", .symbol "z"])
    let operands := Value.ofList [.ofList ([first, second].map bindingForm), .symbol "x"]
    ∃ t, ({} : Limits).evalAt 1 head s = some (.ok (.symbol "let"), t) ∧
      ({} : Limits).evalAt 0 (.pair head operands) s = some (.error (.duplicate "x"), t) ∧
      t.sink.written = "7\n".toUTF8 ∧ t.env.lookup "z" = .error (.unbound "z") := by
  intro s head first second operands
  have hends : (({} : Limits).evalAt 1 head s).map (fun (r, t) =>
      (r, t.sink.written, t.env.lookup "z")) =
        some (.ok (.symbol "let"), "7\n".toUTF8, .error (.unbound "z")) := by
    decide +kernel
  obtain ⟨⟨r, t⟩, hhead, hstate⟩ := Option.map_eq_some_iff.1 hends
  simp only [Prod.mk.injEq] at hstate
  obtain ⟨rfl, hwritten, hlookup⟩ := hstate
  have hfault : BindingsFault (.ofList (([first] ++ second :: []).map bindingForm))
      (.duplicate "x") := .repeated (by decide) (by decide)
  have hshape : Misshapen (.symbol "let") operands (.duplicate "x") := .letBindings hfault
  obtain ⟨hcall, -⟩ := misshapen_call_evaluates_nothing (by decide) hhead hshape
  exact ⟨t, hhead, hcall, hwritten, hlookup⟩

end DynLisp
