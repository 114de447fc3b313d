import DynLisp.Proofs.Scope.Bindings
import DynLisp.Proofs.Scope.Growth
import DynLisp.Proofs.Text.ByteOrder

/-!
# Environments after any changes

From the start of a session on, an environment changes by entering calls, by leaving them and by
definitions (`Environment.Change`), in any order, whether there is a call to leave or not. What holds
of it all the time is `Environment.Valid`: the global frame is the outermost one and the only one of
its kind, it binds all builtins, and no frame binds a name twice (`Valid.change`, `valid_after`). What
names mean and which bindings are listed in any such environment follows
(`environment_after_changes`).
-/

namespace DynLisp

open ByteOrder (utf8 utf8_lt_of_lt)

namespace Frame

/-- Entries for builtins, made one after the other, are those of their names alone. -/
theorem foldl_insertNew? {bs : List Builtin} (hbs : (bs.map Builtin.name).Nodup)
    {m : ChainMap String Value} (hm : m.WellFormed)
    (hnew : ∀ b ∈ bs, m.get? b.name = none) :
    let m' := bs.foldl (fun m b => (m.insertNew? b.name (.symbol b.name)).getD m) m
    m'.WellFormed ∧ (∀ b ∈ bs, m'.get? b.name = some (.symbol b.name)) ∧
      ∀ name, (∀ b ∈ bs, b.name ≠ name) → m'.get? name = m.get? name := by
  induction bs generalizing m with
  | nil => exact ⟨hm, fun b hb => (nomatch hb), fun _ _ => rfl⟩
  | cons b bs ih =>
    rw [List.map_cons, List.nodup_cons, List.mem_map] at hbs
    have hne : ∀ c ∈ bs, c.name ≠ b.name := fun c hc h => hbs.1 ⟨c, hc, h⟩
    obtain ⟨m₁, hm₁⟩ := ChainMap.exists_insertNew?
      (ChainMap.get?_eq_none_iff_contains.1 (hnew b List.mem_cons_self)) (.symbol b.name)
    have hget : ∀ name, m₁.get? name = if b.name = name then some (.symbol b.name)
        else m.get? name := ChainMap.get?_of_insertNew?_self hm₁
    have hnew₁ : ∀ c ∈ bs, m₁.get? c.name = none := fun c hc => by
      rw [hget, if_neg (hne c hc).symm, hnew c (List.mem_cons_of_mem b hc)]
    rw [List.foldl_cons, hm₁, Option.getD_some]
    obtain ⟨hwf, hbound, hother⟩ := ih hbs.2 (hm.insertNew? hm₁) hnew₁
    refine ⟨hwf, fun c hc => ?_, fun name hname => ?_⟩
    · rcases List.mem_cons.1 hc with rfl | hc
      · rw [hother _ hne, hget, if_pos rfl]
      · exact hbound c hc
    · rw [hother name fun c hc => hname c (List.mem_cons_of_mem b hc), hget,
        if_neg (hname b List.mem_cons_self)]

/-- The global frame binds no name twice at the start, and every builtin to its symbol. -/
theorem builtins_spec : builtins.entries.WellFormed ∧
    ∀ b : Builtin, builtins.get? b.name = some (.symbol b.name) := by
  obtain ⟨hwf, hbound, -⟩ := foldl_insertNew? Builtin.nodup_names
    (.withBuckets globalBuckets) (fun b _ => ChainMap.get?_withBuckets globalBuckets b.name)
  unfold get?
  simp only [builtins]
  exact ⟨hwf, fun b => hbound b (Builtin.mem_all b)⟩

theorem wellFormed_of_bind {f g : Frame} {name : String} {v : Value} (hf : f.entries.WellFormed)
    (h : f.bind name v = .ok g) : g.entries.WellFormed :=
  hf.insertNew? (bind_eq_ok h).1

end Frame

namespace Environment

/-- What is done to an environment. -/
inductive Change where
  | push
  | pop
  | define (name : String) (v : Value)

/-- What a change ends with, and the environment after it. -/
def change (env : Environment) : Change → Except EvalError Unit × Environment
  | .push => (.ok (), env.push)
  | .pop => (.ok (), env.pop)
  | .define name v =>
    match env.define name v with
    | .ok env' => (.ok (), env')
    | .error e => (.error e, env)

/-- The environment after some changes from the start of a session. -/
def after (changes : List Change) : Environment :=
  changes.foldl (fun env c => (env.change c).2) initial

/-- What holds of an environment all the time. -/
structure Valid (env : Environment) : Prop where
  global : env.global.scope = .global
  locals : ∀ f ∈ env.locals, f.scope = .local
  builtins : ∀ b : Builtin, env.global.get? b.name = some (.symbol b.name)
  /-- No frame binds a name twice. -/
  wellFormed : ∀ f ∈ env.frames, f.entries.WellFormed

variable {env env' : Environment} {name : String} {v : Value}

theorem valid_initial : initial.Valid where
  global := rfl
  locals _ h := nomatch h
  builtins := Frame.builtins_spec.2
  wellFormed f hf := by
    rw [List.mem_singleton.1 hf]
    exact Frame.builtins_spec.1

theorem Valid.push (h : env.Valid) : env.push.Valid where
  global := h.global
  locals f hf := by
    rcases List.mem_cons.1 hf with rfl | hf
    · rfl
    · exact h.locals f hf
  builtins := h.builtins
  wellFormed f hf := by
    rcases List.mem_cons.1 hf with rfl | hf
    · exact .withBuckets _
    · exact h.wellFormed f hf

theorem Valid.pop (h : env.Valid) : env.pop.Valid where
  global := h.global
  locals f hf := h.locals f (List.mem_of_mem_tail hf)
  builtins := h.builtins
  wellFormed f hf := by
    rcases List.mem_append.1 hf with hf | hf
    · exact h.wellFormed f (List.mem_append_left _ (List.mem_of_mem_tail hf))
    · exact h.wellFormed f (List.mem_append_right _ hf)

theorem Valid.define (h : env.Valid) (hdefine : env.define name v = .ok env') : env'.Valid := by
  obtain ⟨g, hg, rfl⟩ := define_eq_ok hdefine
  have hscope : g.scope = env.current.scope := (Frame.bind_eq_ok hg).2
  have hwf : ∀ f ∈ (env.withCurrent g).frames, f.entries.WellFormed := by
    rw [frames_eq_cons, current_withCurrent, frames_tail_withCurrent]
    rintro f (_ | ⟨_, hf⟩)
    · exact Frame.wellFormed_of_bind (h.wellFormed _ (by rw [frames_eq_cons]; exact .head _)) hg
    · exact h.wellFormed f (List.mem_of_mem_tail hf)
  obtain ⟨global, locals⟩ := env
  cases locals with
  | nil =>
    exact ⟨hscope.trans h.global, h.locals, fun b => Frame.get?_of_bind_of_some hg (h.builtins b),
      hwf⟩
  | cons f fs =>
    refine ⟨h.global, ?_, h.builtins, hwf⟩
    rintro f' (_ | ⟨_, hf'⟩)
    · exact hscope.trans (h.locals f List.mem_cons_self)
    · exact h.locals f' (List.mem_cons_of_mem f hf')

theorem change_define_of_ok (h : env.define name v = .ok env') :
    env.change (.define name v) = (.ok (), env') := by
  simp only [change, h]

theorem change_define_of_error {e : EvalError} (h : env.define name v = .error e) :
    env.change (.define name v) = (.error e, env) := by
  simp only [change, h]

/-- A definition fails if the innermost frame binds the name, and then nothing changes. -/
theorem change_define_eq_error_iff {e : EvalError} :
    env.change (.define name v) = (.error e, env') ↔
      e = .duplicate name ∧ env' = env ∧ env.current.contains name = true := by
  cases hc : env.current.contains name with
  | true =>
    rw [change_define_of_error (define_of_contains hc v)]
    simp [eq_comm]
  | false =>
    obtain ⟨env₁, hdefine⟩ := exists_define_of_not_contains hc v
    rw [change_define_of_ok hdefine]
    simp

/-- Any other definition binds the name in the innermost frame. -/
theorem define_of_change_eq_ok (h : env.change (.define name v) = (.ok (), env')) :
    env.define name v = .ok env' := by
  cases hdefine : env.define name v with
  | ok env₁ =>
    rw [change_define_of_ok hdefine] at h
    cases h
    rfl
  | error e =>
    rw [change_define_of_error hdefine] at h
    cases h

theorem Valid.change (h : env.Valid) (c : Change) : (env.change c).2.Valid := by
  cases c with
  | push => exact h.push
  | pop => exact h.pop
  | define name v =>
    cases hdefine : env.define name v with
    | ok env' =>
      rw [change_define_of_ok hdefine]
      exact h.define hdefine
    | error e =>
      rw [change_define_of_error hdefine]
      exact h

theorem valid_after (changes : List Change) : (after changes).Valid := by
  have hfold : ∀ env : Environment, env.Valid →
      (changes.foldl (fun env c => (env.change c).2) env).Valid := by
    induction changes with
    | nil => exact fun _ h => h
    | cons c changes ih => exact fun env h => ih _ (h.change c)
  exact hfold initial valid_initial

/-! ## Any changes -/

/-- Counted from the outside, frame zero is the global one, and no other is. -/
theorem Valid.scope_eq_global_iff (h : env.Valid) {i : Nat} {f : Frame}
    (hf : env.frames.reverse[i]? = some f) : f.scope = .global ↔ i = 0 := by
  unfold frames at hf
  rw [List.reverse_append, List.reverse_singleton, List.singleton_append] at hf
  cases i with
  | zero =>
    cases hf
    simp only [h.global]
  | succ i =>
    have hlocal : f ∈ env.locals := List.mem_reverse.1 (List.mem_of_getElem? hf)
    simp [h.locals f hlocal]

/-- After any changes from the start of a session on: frame zero is the global one and no other is,
and it binds all builtins to their symbols; a name means what the innermost frame that binds it
says, and is unbound if none does; a definition fails, as a duplicate and with no effect, exactly if
the innermost frame binds the name, and otherwise binds that name alone and only there. The list of
bindings is strictly ascending in the bytes of the names, and has a name with a value if that is what
the name means and the name is not that of a builtin or is bound in a local frame. -/
theorem environment_after_changes (changes : List Change) :
    let env := after changes
    env.frames.reverse[0]? = some env.global ∧
    (∀ i f, env.frames.reverse[i]? = some f → (f.scope = .global ↔ i = 0)) ∧
    (∀ b : Builtin, env.global.get? b.name = some (.symbol b.name)) ∧
    (∀ name v, env.lookup name = .ok v ↔
      ∃ inner f outer, env.frames = inner ++ f :: outer ∧ f.get? name = some v ∧
        ∀ g ∈ inner, g.contains name = false) ∧
    (∀ name e, env.lookup name = .error e ↔
      e = .unbound name ∧ ∀ f ∈ env.frames, f.contains name = false) ∧
    (∀ name v e env', env.change (.define name v) = (.error e, env') ↔
      e = .duplicate name ∧ env' = env ∧ env.current.contains name = true) ∧
    (∀ name v env', env.change (.define name v) = (.ok (), env') →
      env'.frames.tail = env.frames.tail ∧
      ∀ name', env'.current.get? name' = if name = name' then some v else env.current.get? name') ∧
    env.bindings.Pairwise (fun b b' => utf8 b.1 < utf8 b'.1) ∧
    ∀ name v, (name, v) ∈ env.bindings ↔ env.lookup name = .ok v ∧
      ((∀ b : Builtin, b.name ≠ name) ∨ ∃ f ∈ env.locals, f.contains name = true) := by
  intro env
  have hvalid : env.Valid := valid_after changes
  refine ⟨?_, fun i f => hvalid.scope_eq_global_iff, hvalid.builtins,
    fun name v => lookup_eq_ok_iff, fun name e => lookup_eq_error_iff,
    fun name v e env' => change_define_eq_error_iff, fun name v env' h => ?_, ?_,
    fun name v => ?_⟩
  · rw [frames, List.reverse_append]
    rfl
  · obtain ⟨g, hg, rfl⟩ := define_eq_ok (define_of_change_eq_ok h)
    refine ⟨frames_tail_withCurrent env g, fun name' => ?_⟩
    rw [current_withCurrent]
    exact Frame.get?_of_bind hg name'
  · exact (pairwise_bindings env).imp utf8_lt_of_lt
  · rw [lookup_eq_ok_iff_get?]
    exact mem_bindings_iff hvalid.wellFormed hvalid.global hvalid.locals name v

end Environment

end DynLisp
