import DynLisp.Proofs.Evaluation.Congruence
import DynLisp.Proofs.Scope.Lookup

/-!
# What evaluations ensure

A property of states and one of results hold after a computation if the computation ensures them
(`Ensures`). If all values in the environment belong to a class of values, then evaluations of
expressions of the class ensure that they still do, and that the result does
(`ValueClass.congruence_ensures`), so evaluation never leaves the class:

* `ValueClass.eval`: the evaluation of an expression;
* `ValueClass.applyAt`: an application.
-/

namespace DynLisp

open EvalM

/-- All values that are bound in some frame belong to the class. -/
def Environment.AllIn (W : Value → Prop) (env : Environment) : Prop :=
  ∀ f ∈ env.frames, ∀ name v, f.get? name = some v → W v

namespace Environment.AllIn

variable {W : Value → Prop} {env env' : Environment} {name : String} {v : Value}

theorem lookup (h : env.AllIn W) (hv : env.lookup name = .ok v) : W v := by
  obtain ⟨inner, f, outer, hframes, hget, -⟩ := lookup_eq_ok_iff.1 hv
  have hf : f ∈ env.frames := by
    rw [hframes]
    exact List.mem_append_right _ List.mem_cons_self
  exact h f hf name v hget

theorem push (h : env.AllIn W) : env.push.AllIn W := by
  rintro f (_ | ⟨_, hf⟩) name v hv
  · rw [Frame.get?_call] at hv
    cases hv
  · exact h f hf name v hv

theorem pop (h : env.AllIn W) : env.pop.AllIn W := by
  intro f hf
  refine h f ?_
  rcases List.mem_append.1 hf with hf | hf
  · exact List.mem_append_left _ (List.mem_of_mem_tail hf)
  · exact List.mem_append_right _ hf

theorem define (h : env.AllIn W) (hv : W v) (hdefine : env.define name v = .ok env') :
    env'.AllIn W := by
  obtain ⟨g, hg, rfl⟩ := define_eq_ok hdefine
  intro f hf name' w hw
  rw [frames_eq_cons, current_withCurrent, frames_tail_withCurrent] at hf
  rcases List.mem_cons.1 hf with rfl | hf
  · rw [Frame.get?_of_bind hg] at hw
    split at hw
    · cases hw
      exact hv
    · refine h env.current ?_ name' w hw
      rw [frames_eq_cons]
      exact List.mem_cons_self
  · exact h f (List.mem_of_mem_tail hf) name' w hw

/-- Entries for builtins are their symbols. -/
theorem entries_foldl (h : ∀ b : Builtin, W (.symbol b.name)) (bs : List Builtin)
    {m : ChainMap String Value} (hm : ∀ (name : String) v, m.get? name = some v → W v)
    (name : String) (v : Value)
    (hv : (bs.foldl (fun m b => (m.insertNew? b.name (.symbol b.name)).getD m) m).get? name =
      some v) : W v := by
  induction bs generalizing m with
  | nil => exact hm name v hv
  | cons b bs ih =>
    rw [List.foldl_cons] at hv
    refine ih (fun name' w hw => ?_) hv
    cases hnew : m.insertNew? b.name (.symbol b.name) with
    | none =>
      rw [hnew, Option.getD_none] at hw
      exact hm name' w hw
    | some m' =>
      rw [hnew, Option.getD_some, ChainMap.get?_of_insertNew?_self hnew] at hw
      split at hw
      · cases hw
        exact h b
      · exact hm name' w hw

/-- At the start of a session only the symbols of builtins are bound. -/
theorem initial (h : ∀ b : Builtin, W (.symbol b.name)) : Environment.initial.AllIn W := by
  intro f hf name v hv
  have hglobal : f = Frame.builtins := List.mem_singleton.1 hf
  rw [hglobal] at hv
  unfold Frame.get? at hv
  simp only [Frame.builtins] at hv
  refine entries_foldl h Builtin.all (fun name' w hw => ?_) name v hv
  rw [ChainMap.get?_withBuckets] at hw
  cases hw

end Environment.AllIn

/-! ## What evaluations ensure -/

/-- From a state with the property `I` the computation goes to one with it; its result, if it has
one, is as told. -/
def Ensures {ε σ α : Type} (I : σ → Prop) (x : Stateful ε σ α) (Q : α → Prop) : Prop :=
  ∀ s r t, I s → x s = some (r, t) → I t ∧ ∀ a, r = .ok a → Q a

namespace Ensures

variable {ε σ α β : Type} {I : σ → Prop} {Q : α → Prop} {R : β → Prop}

theorem pure {a : α} (ha : Q a) : Ensures I (pure a : Stateful ε σ α) Q := by
  rintro s r t hs h
  cases h
  refine ⟨hs, ?_⟩
  rintro _ ⟨⟩
  exact ha

theorem throw (e : ε) : Ensures I (throw e : Stateful ε σ α) Q := by
  rintro s r t hs h
  cases h
  exact ⟨hs, nofun⟩

theorem bind {x : Stateful ε σ α} {f : α → Stateful ε σ β} (hx : Ensures I x Q)
    (hf : ∀ a, Q a → Ensures I (f a) R) : Ensures I (x >>= f) R := by
  intro s r u hs h
  rcases Stateful.bind_eq_some h with ⟨e, he, rfl⟩ | ⟨a, t, ha, hu⟩
  · exact ⟨(hx s _ u hs he).1, nofun⟩
  · obtain ⟨ht, hq⟩ := hx s _ t hs ha
    exact hf a (hq a rfl) t r u ht hu

theorem mapM {γ : Type} {f : γ → Stateful ε σ α} {es : List γ} (hf : ∀ e ∈ es, Ensures I (f e) Q) :
    Ensures I (es.mapM f) fun vs => ∀ v ∈ vs, Q v := by
  induction es with
  | nil => exact .pure fun v hv => (List.not_mem_nil hv).elim
  | cons e es ih =>
    obtain ⟨he, hes⟩ := List.forall_mem_cons.1 hf
    rw [List.mapM_cons]
    exact he.bind fun v hv => (ih hes).bind fun vs hvs => .pure (List.forall_mem_cons.2 ⟨hv, hvs⟩)

end Ensures

/-- All values that are bound in the environment belong to the class. -/
def Interp.AllIn (W : Value → Prop) (s : Interp) : Prop :=
  s.env.AllIn W

theorem Interp.AllIn.push {W : Value → Prop} {s : Interp} (h : s.AllIn W) :
    ({ s with env := s.env.push } : Interp).AllIn W :=
  Environment.AllIn.push h

namespace Ensures

variable {α : Type} {W : Value → Prop} {Q : α → Prop}

theorem unfinished : Ensures (Interp.AllIn W) (unfinished : EvalM α) Q :=
  fun _ _ _ _ h => nomatch h

theorem lookup (name : String) : Ensures (Interp.AllIn W) (lookup name) W := by
  intro s r t hs h
  rw [run_lookup] at h
  cases h
  exact ⟨hs, fun v hv => hs.lookup hv⟩

theorem define (name : String) {v : Value} (hv : W v) :
    Ensures (Interp.AllIn W) (define name v) fun _ => True := by
  intro s r t hs h
  rw [run_define] at h
  split at h
  · rename_i env henv
    cases h
    exact ⟨hs.define hv henv, fun _ _ => trivial⟩
  · cases h
    exact ⟨hs, fun _ _ => trivial⟩

theorem writeLine (pieces : List String) :
    Ensures (Interp.AllIn W) (writeLine pieces) fun _ => True := by
  intro s r t hs h
  rw [run_writeLine] at h
  cases h
  exact ⟨hs, fun _ _ => trivial⟩

theorem inCall {x : EvalM α} (hx : Ensures (Interp.AllIn W) x Q) :
    Ensures (Interp.AllIn W) (inCall x) Q := by
  intro s r t hs h
  obtain ⟨t', ht', rfl⟩ := inCall_ok h
  obtain ⟨henv, hq⟩ := hx _ r t' hs.push ht'
  exact ⟨henv.pop, hq⟩

end Ensures

namespace ValueClass

variable {W : Value → Prop}

/-- What evaluations ensure is a relation of one evaluation that all operations keep. -/
theorem congruence_ensures (h : ValueClass W) :
    CongruenceOn W fun _ _ x _ => Ensures (Interp.AllIn W) x (Result.AllIn W) where
  values := h
  pure := Ensures.pure
  throw := Ensures.throw
  bind := Ensures.bind
  lookup _ := .lookup _
  define _ hv := .define _ hv
  writeLine := .writeLine
  inCall := .inCall
  unfinished _ := .unfinished

theorem bindArguments (h : ValueClass W) {formals : Value} {values : List Value}
    (hformals : W formals) (hvalues : ∀ v ∈ values, W v) :
    Ensures (Interp.AllIn W) (bindArguments formals values) fun _ => True :=
  h.congruence_ensures.bindArguments hformals hvalues

/-- No evaluation leaves the class. -/
theorem eval (h : ValueClass W) (limits : Limits) (levels : Nat) {e : Value} (he : W e) :
    Ensures (Interp.AllIn W) (DynLisp.eval limits levels e) W :=
  h.congruence_ensures.eval_self limits levels he

theorem applyAt (h : ValueClass W) (limits : Limits) (depth : Nat) {callee operands : Value}
    (hcallee : W callee) (hoperands : W operands) :
    Ensures (Interp.AllIn W) (limits.applyAt depth callee operands) W :=
  h.congruence_ensures.applyAt_self limits depth hcallee hoperands

end ValueClass

end DynLisp
