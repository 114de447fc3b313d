import DynLisp.Proofs.Evaluation.NestedCalls
import DynLisp.Proofs.Evaluation.Postconditions

/-!
# Well-formed procedures

A procedure is only made from formals in order and a body (`Value.ProceduresValid`), by `lambda` and
by `let` alike. All values that a call can reach are made of such procedures if those are that it
starts from (`Call.Nests.allIn`). So a procedure that is applied binds its formals, whatever the
values (`ValidFormals.exists_bindArguments`).
-/

namespace DynLisp

open EvalM Value

/-- Formals that can be bound: one symbol for all operands, or distinct ones for each. -/
inductive ValidFormals : Value → Prop where
  | all (name : String) : ValidFormals (.symbol name)
  | each {names : List String} : names.Nodup → ValidFormals (.ofList (names.map .symbol))

/-- All procedures in the value, at any place in it, have valid formals and a body that is not
empty. -/
def Value.ProceduresValid : Value → Prop
  | .pair head tail => head.ProceduresValid ∧ tail.ProceduresValid
  | .procedure formals body =>
    ValidFormals formals ∧ (∃ e es, body = .ofList (e :: es)) ∧ body.ProceduresValid
  | _ => True

/-! ## Making procedures -/

theorem exists_names_of_checkDistinct {seen : List String} {formals : List Value}
    (h : checkDistinct seen formals = .ok ()) :
    ∃ names : List String, formals = names.map .symbol ∧ names.Nodup ∧
      ∀ name ∈ names, name ∉ seen := by
  induction formals generalizing seen with
  | nil => exact ⟨[], rfl, List.nodup_nil, fun _ hname => (List.not_mem_nil hname).elim⟩
  | cons formal formals ih =>
    cases formal with
    | symbol name =>
      unfold checkDistinct at h
      split at h
      · cases h
      · rename_i hseen
        obtain ⟨names, rfl, hnodup, hnames⟩ := ih h
        have hname : name ∉ names := fun hmem => hnames name hmem List.mem_cons_self
        refine ⟨name :: names, rfl, List.nodup_cons.2 ⟨hname, hnodup⟩, ?_⟩
        refine List.forall_mem_cons.2 ⟨fun hmem => hseen (List.contains_iff_mem.2 hmem), ?_⟩
        exact fun name' hmem hmem' => hnames name' hmem (List.mem_cons_of_mem _ hmem')
    | _ => cases h

/-- Formals that are not refused are valid. -/
theorem validFormals_of_checkFormals {formals : Value} (h : checkFormals formals = .ok ()) :
    ValidFormals formals := by
  unfold checkFormals at h
  split at h
  · exact .all _
  · dsimp only at h
    split at h
    · cases h
    · obtain ⟨items, hlist, hdistinct⟩ := exists_of_bind_eq_ok h
      obtain ⟨names, rfl, hnodup, -⟩ := exists_names_of_checkDistinct hdistinct
      obtain rfl := toList_eq_ok_iff.1 hlist
      exact .each hnodup

/-- New symbols are passed over. -/
theorem checkDistinct_append {seen names : List String} (hnodup : names.Nodup)
    (hseen : ∀ name ∈ names, name ∉ seen) (others : List Value) :
    checkDistinct seen (names.map .symbol ++ others) =
      checkDistinct (names.reverse ++ seen) others := by
  induction names generalizing seen with
  | nil => rfl
  | cons name names ih =>
    obtain ⟨hname, hnodup⟩ := List.nodup_cons.1 hnodup
    have hnew : ¬ seen.contains name = true :=
      fun h => hseen name List.mem_cons_self (List.contains_iff_mem.1 h)
    rw [List.map_cons, List.cons_append, checkDistinct, if_neg hnew, ih hnodup]
    · simp
    · intro name' hmem hmem'
      rcases List.mem_cons.1 hmem' with rfl | hmem'
      · exact hname hmem
      · exact hseen name' (List.mem_cons_of_mem _ hmem) hmem'

theorem checkDistinct_of_nodup {seen names : List String} (hnodup : names.Nodup)
    (hseen : ∀ name ∈ names, name ∉ seen) : checkDistinct seen (names.map .symbol) = .ok () := by
  have h := checkDistinct_append hnodup hseen []
  rw [List.append_nil] at h
  exact h

theorem checkFormals_of_not_symbol {formals : Value} (h : ∀ name, formals ≠ .symbol name) :
    checkFormals formals = if !formals.isList then .error (.typeMismatch (.formals formals))
      else formals.toList >>= checkDistinct [] := by
  cases formals with
  | symbol name => exact (h name rfl).elim
  | _ => rfl

theorem checkFormals_ofList (formals : List Value) :
    checkFormals (.ofList formals) = checkDistinct [] formals := by
  rw [checkFormals_of_not_symbol (ofList_ne_symbol formals), isList_ofList, toList_ofList]
  rfl

/-- A list of distinct symbols is not refused. -/
theorem checkFormals_of_nodup {names : List String} (h : names.Nodup) :
    checkFormals (.ofList (names.map .symbol)) = .ok () := by
  rw [checkFormals_ofList]
  exact checkDistinct_of_nodup h fun _ _ => List.not_mem_nil

/-- Valid formals are symbols, so there is no procedure in them. -/
theorem ValidFormals.proceduresValid {formals : Value} (h : ValidFormals formals) :
    formals.ProceduresValid := by
  cases h with
  | all name => exact trivial
  | @each names hnodup =>
    clear hnodup
    induction names with
    | nil => exact trivial
    | cons name names ih => exact ⟨trivial, ih⟩

theorem valueClass_proceduresValid : ValueClass ProceduresValid where
  nil := trivial
  int _ := trivial
  float _ := trivial
  pair_iff := Iff.rfl
  procedure hcheck _ hbody := ⟨validFormals_of_checkFormals hcheck, ⟨_, _, rfl⟩, hbody⟩
  parts h := ⟨h.1.proceduresValid, h.2.2⟩

/-! ## Binding formals -/

/-- Distinct symbols that a frame does not bind can be bound in it. -/
theorem exists_bindEach {names : List String} (hnodup : names.Nodup) {s : Interp}
    (hfresh : ∀ name ∈ names, s.env.current.contains name = false) (values : List Value) :
    ∃ t, bindEach (names.map .symbol) values s = some (.ok (), t) := by
  induction names generalizing s values with
  | nil => cases values <;> exact ⟨s, rfl⟩
  | cons name names ih =>
    cases values with
    | nil => exact ⟨s, rfl⟩
    | cons v vs =>
      obtain ⟨hname, hnodup⟩ := List.nodup_cons.1 hnodup
      obtain ⟨env, henv⟩ :=
        Environment.exists_define_of_not_contains (hfresh name List.mem_cons_self) v
      have hdefine : define name v s = some (.ok (), { s with env }) := by
        rw [run_define, henv]
      have hfresh' : ∀ name' ∈ names, env.current.contains name' = false := by
        intro name' hmem
        have hne : name ≠ name' := fun heq => hname (heq ▸ hmem)
        rw [Environment.contains_current_of_define henv, beq_false_of_ne hne, Bool.false_or]
        exact hfresh name' (List.mem_cons_of_mem _ hmem)
      obtain ⟨t, ht⟩ := @ih hnodup { s with env } hfresh' vs
      refine ⟨t, ?_⟩
      rw [List.map_cons, bindEach, Stateful.bind_of_ok hdefine, ht]

theorem bindArguments_ofList (formals values : List Value) :
    bindArguments (.ofList formals) values = bindEach formals values := by
  have hitems := congrArg (bindEach · values) (items_ofList formals)
  cases formals with
  | nil => exact hitems
  | cons formal formals => exact hitems

/-- Valid formals are bound in the frame of a call, to whatever values. -/
theorem ValidFormals.exists_bindArguments {formals : Value} (h : ValidFormals formals)
    (values : List Value) (s : Interp) :
    ∃ t, bindArguments formals values { s with env := s.env.push } = some (.ok (), t) := by
  cases h with
  | all name =>
    have hfresh : s.env.push.current.contains name = false := rfl
    obtain ⟨env, henv⟩ := Environment.exists_define_of_not_contains hfresh (.ofList values)
    refine ⟨{ s with env }, ?_⟩
    rw [bindArguments, run_define, henv]
  | each hnodup =>
    rw [bindArguments_ofList]
    exact exists_bindEach hnodup (fun _ _ => rfl) values

/-- Formals for single operands can be counted. -/
theorem ValidFormals.exists_length {formals : Value} (h : ValidFormals formals)
    (hlist : ∀ name, formals ≠ .symbol name) : ∃ count, formals.length = .ok count := by
  cases h with
  | all name => exact (hlist name rfl).elim
  | each _ => exact ⟨_, length_ofList _⟩

/-! ## Nested calls -/

/-- The values that a call starts from belong to the class. -/
structure Call.AllIn (W : Value → Prop) (c : Call) : Prop where
  state : c.state.AllIn W
  task : match c.task with
    | .eval e => W e
    | .apply callee operands => W callee ∧ W operands

section Nested

variable {W : Value → Prop} {maxDepth levels : Nat} {s t : Interp}

theorem Evaluates.allIn (h : ValueClass W) {e v : Value}
    (hevaluates : Evaluates maxDepth levels e s v t) (hs : s.AllIn W) (he : W e) :
    t.AllIn W ∧ W v := by
  obtain ⟨chain, hchain⟩ := hevaluates
  obtain ⟨ht, hv⟩ := h.eval ⟨maxDepth, chain⟩ levels he s _ t hs hchain
  exact ⟨ht, hv v rfl⟩

theorem EvaluatesAll.allIn (h : ValueClass W) {es vs : List Value}
    (hevaluates : EvaluatesAll maxDepth levels es s vs t) (hs : s.AllIn W)
    (hes : ∀ e ∈ es, W e) : t.AllIn W ∧ ∀ v ∈ vs, W v := by
  obtain ⟨chain, hchain⟩ := hevaluates
  have hmapM : Ensures (Interp.AllIn W) (es.mapM (eval ⟨maxDepth, chain⟩ levels))
      fun vs => ∀ v ∈ vs, W v := .mapM fun e he => h.eval ⟨maxDepth, chain⟩ levels (hes e he)
  obtain ⟨ht, hvs⟩ := hmapM s _ t hs hchain
  exact ⟨ht, hvs vs rfl⟩

theorem ValueClass.of_ofList (h : ValueClass W) {es : List Value} (hes : W (.ofList es)) :
    ∀ e ∈ es, W e :=
  fun _ he => h.of_toList hes (toList_ofList es) he

/-- The branch that is taken is one of those given. -/
theorem mem_of_takenBranch {branches : List Value} {v e : Value}
    (h : takenBranch branches v = .ok (some e)) : e ∈ branches := by
  unfold takenBranch at h
  split at h
  · exact List.mem_of_getElem? (Except.ok.inj h)
  · cases h

/-- What belongs to a class in a call does so in those nested in it. -/
theorem Call.Nests.allIn (h : ValueClass W) {c c' : Call} (hnests : Nests maxDepth c c')
    (hc : c.AllIn W) : c'.AllIn W := by
  obtain ⟨henv, htask⟩ := hc
  cases hnests with
  | head => exact ⟨henv, (h.pair_iff.1 htask).1⟩
  | application hcallee =>
    obtain ⟨hhead, hoperands⟩ := h.pair_iff.1 htask
    obtain ⟨ht, hv⟩ := hcallee.allIn h henv hhead
    exact ⟨ht, hv, hoperands⟩
  | primitiveOperand _ hdone =>
    obtain ⟨hfirst, hnext⟩ := List.forall_mem_append.1 (h.of_ofList htask.2)
    exact ⟨(hdone.allIn h henv hfirst).1, hnext _ List.mem_cons_self⟩
  | procedureOperand _ hdone =>
    obtain ⟨hfirst, hnext⟩ := List.forall_mem_append.1 (h.of_ofList htask.2)
    exact ⟨(hdone.allIn h henv hfirst).1, hnext _ List.mem_cons_self⟩
  | procedureBody _ hoperands hbind hitems hdone =>
    obtain ⟨ht, hvs⟩ := hoperands.allIn h henv (h.of_ofList htask.2)
    obtain ⟨hu, -⟩ := h.bindArguments (h.parts htask.1).1 hvs _ _ _ ht.push hbind
    have hbody := fun e he => h.of_mem_items (w := e) (h.parts htask.1).2 he
    rw [hitems] at hbody
    obtain ⟨hfirst, hnext⟩ := List.forall_mem_append.1 hbody
    exact ⟨(hdone.allIn h hu hfirst).1, hnext _ List.mem_cons_self⟩
  | condition => exact ⟨henv, (h.pair_iff.1 htask.2).1⟩
  | branch _ hcondition htaken =>
    obtain ⟨he, hes⟩ := List.forall_mem_cons.1 (h.of_ofList htask.2)
    exact ⟨(hcondition.allIn h henv he).1, hes _ (mem_of_takenBranch htaken)⟩
  | defined => exact ⟨henv, h.of_ofList htask.2 _ (List.mem_cons_of_mem _ List.mem_cons_self)⟩
  | printed => exact ⟨henv, (h.pair_iff.1 htask.2).1⟩
  | evaluated => exact ⟨henv, (h.pair_iff.1 htask.2).1⟩
  | evaluatedAgain hv =>
    obtain ⟨ht, hv⟩ := hv.allIn h henv (h.pair_iff.1 htask.2).1
    exact ⟨ht, hv⟩
  | appliedTo _ => exact ⟨henv, h.of_ofList htask.2 _ (List.mem_cons_of_mem _ List.mem_cons_self)⟩
  | handOver hover =>
    cases hover with
    | mk hlookup hoperands =>
      have he := h.of_ofList htask.2 _ (List.mem_cons_of_mem _ List.mem_cons_self)
      obtain ⟨ht, hv⟩ := hoperands.allIn h henv he
      exact ⟨ht, henv.lookup hlookup, h.asOperands hv⟩
  | letProcedure hpairs hcheck =>
    obtain ⟨hbindings, hbody⟩ := h.pair_iff.1 htask.2
    have hparts := fun p => h.of_splitBindings (p := p) hbindings hpairs
    refine ⟨henv, h.procedure hcheck (h.ofList ?_) hbody, h.ofList ?_⟩
    · exact List.forall_mem_map.2 fun p hp => (hparts p hp).1
    · exact List.forall_mem_map.2 fun p hp => (hparts p hp).2

end Nested

end DynLisp
