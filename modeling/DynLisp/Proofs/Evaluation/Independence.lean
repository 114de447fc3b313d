import Mathlib.Data.List.Forall2
import DynLisp.Proofs.Evaluation.Equivalences
import DynLisp.Proofs.Evaluation.Postconditions

/-!
# Bindings that are not mentioned

Code is made from data while a program runs, and free names mean what the frames say where they are
looked up. Still no evaluation makes a symbol that was not there before, in the expression or in a
bound value: the values in which a name is not mentioned are a `ValueClass`. So two evaluations
whose frames differ in the bindings of such a name only (`Environment.AgreesBut`) stay that way and
end alike, and the binding of a name that is mentioned nowhere does not matter
(`unmentioned_binding_does_not_matter`).
-/

namespace DynLisp

/-! ## What a value mentions -/

namespace Value

/-- The symbol of this name occurs in the value, at any place in it; in a procedure those are its
formals and its body. -/
def Mentions (z : String) : Value → Prop
  | symbol name => name = z
  | pair head tail => head.Mentions z ∨ tail.Mentions z
  | procedure formals body => formals.Mentions z ∨ body.Mentions z
  | _ => False

instance decidableMentions (z : String) : DecidablePred (Mentions z)
  | nil => .isFalse id
  | int _ => .isFalse id
  | float _ => .isFalse id
  | symbol name => inferInstanceAs (Decidable (name = z))
  | pair head tail =>
    have := decidableMentions z head
    have := decidableMentions z tail
    inferInstanceAs (Decidable (head.Mentions z ∨ tail.Mentions z))
  | procedure formals body =>
    have := decidableMentions z formals
    have := decidableMentions z body
    inferInstanceAs (Decidable (formals.Mentions z ∨ body.Mentions z))

/-- The name is not mentioned in the value. -/
def Avoids (z : String) (v : Value) : Prop :=
  ¬ v.Mentions z

end Value

open Value

/-- No way to make values brings in a name that was not mentioned. -/
theorem valueClass_avoids (z : String) : ValueClass (Avoids z) where
  nil := id
  int _ := id
  float _ := id
  pair_iff := not_or
  procedure _ hformals hbody := not_or.2 ⟨hformals, hbody⟩
  parts := not_or.1

/-! ## Frames that differ in one name -/

/-- Two frames bind all names but one alike, and to values that do not mention it. -/
structure Frame.AgreesBut (z : String) (f g : Frame) : Prop where
  get? : ∀ name, name ≠ z → f.get? name = g.get? name
  avoids : ∀ name v, name ≠ z → f.get? name = some v → v.Avoids z

namespace Frame.AgreesBut

variable {z : String} {f f' g : Frame}

theorem symm (h : f.AgreesBut z g) : g.AgreesBut z f where
  get? name hname := (h.get? name hname).symm
  avoids name v hname hv := h.avoids name v hname ((h.get? name hname).trans hv)

theorem call : Frame.call.AgreesBut z .call where
  get? _ _ := rfl
  avoids name v _ hv := by
    rw [get?_call] at hv
    cases hv

theorem refl (h : ∀ name v, f.get? name = some v → v.Avoids z) : f.AgreesBut z f where
  get? _ _ := rfl
  avoids name v _ := h name v

/-- With the name bound in addition, a frame agrees with what it was. -/
theorem bind_self {w : Value} (h : ∀ name v, f.get? name = some v → v.Avoids z)
    (hbind : f.bind z w = .ok g) : f.AgreesBut z g where
  get? name hname := by rw [get?_of_bind hbind, if_neg hname.symm]
  avoids name v _ := h name v

/-- The frames bind the same other names, so another name can be bound in both or in neither. -/
theorem bind (h : f.AgreesBut z g) {name : String} (hname : name ≠ z) {v : Value}
    (hv : v.Avoids z) :
    (∃ e, f.bind name v = .error e ∧ g.bind name v = .error e) ∨
      ∃ f' g', f.bind name v = .ok f' ∧ g.bind name v = .ok g' ∧ f'.AgreesBut z g' := by
  have hcontains : f.contains name = g.contains name := by
    rw [contains_eq, contains_eq, h.get? name hname]
  cases hf : f.contains name with
  | true =>
    exact .inl ⟨_, bind_of_contains hf v, bind_of_contains (hcontains.symm.trans hf) v⟩
  | false =>
    obtain ⟨f', hf'⟩ := exists_bind_of_not_contains hf v
    obtain ⟨g', hg'⟩ := exists_bind_of_not_contains (hcontains.symm.trans hf) v
    refine .inr ⟨f', g', hf', hg', fun name' hname' => ?_, fun name' v' hname' hv' => ?_⟩
    · rw [get?_of_bind hf', get?_of_bind hg', h.get? name' hname']
    · rw [get?_of_bind hf'] at hv'
      split at hv'
      · cases hv'
        exact hv
      · exact h.avoids name' v' hname' hv'

end Frame.AgreesBut

/-- As many frames, which bind all names but one alike. -/
def Environment.AgreesBut (z : String) (env env' : Environment) : Prop :=
  List.Forall₂ (Frame.AgreesBut z) env.frames env'.frames

namespace Environment.AgreesBut

variable {z : String} {env env' : Environment}

theorem symm (h : env.AgreesBut z env') : env'.AgreesBut z env :=
  List.Forall₂.flip (h.imp fun _ _ => Frame.AgreesBut.symm)

theorem push (h : env.AgreesBut z env') : env.push.AgreesBut z env'.push :=
  .cons .call h

/-- Both innermost frames are left, or both environments have the global frame only. -/
theorem pop (h : env.AgreesBut z env') : env.pop.AgreesBut z env'.pop := by
  obtain ⟨global, locals⟩ := env
  obtain ⟨global', locals'⟩ := env'
  match locals, locals', h with
  | [], [], h => exact h
  | _ :: _, _ :: _, .cons _ h => exact h
  | [], _ :: locals', .cons _ h => cases locals' <;> cases h
  | _ :: locals, [], .cons _ h => cases locals <;> cases h

theorem findSome?_get? {fs gs : List Frame} (h : List.Forall₂ (Frame.AgreesBut z) fs gs)
    {name : String} (hname : name ≠ z) :
    fs.findSome? (·.get? name) = gs.findSome? (·.get? name) ∧
      ∀ v, fs.findSome? (·.get? name) = some v → v.Avoids z := by
  induction h with
  | nil => exact ⟨rfl, nofun⟩
  | @cons f g fs gs hfg _ ih =>
    rw [List.findSome?_cons, List.findSome?_cons, ← hfg.get? name hname]
    cases hget : f.get? name with
    | none => exact ih
    | some v =>
      refine ⟨rfl, ?_⟩
      rintro _ ⟨⟩
      exact hfg.avoids name v hname hget

/-- Other names mean the same, and values that do not mention the one. -/
theorem lookup (h : env.AgreesBut z env') {name : String} (hname : name ≠ z) :
    env.lookup name = env'.lookup name ∧ ∀ v, env.lookup name = .ok v → v.Avoids z := by
  obtain ⟨hget, havoids⟩ := findSome?_get? h hname
  rw [← get?_eq] at havoids
  rw [← get?_eq, ← get?_eq] at hget
  exact ⟨lookup_eq_iff.2 hget, fun v hv => havoids v (lookup_eq_ok_iff_get?.1 hv)⟩

theorem define (h : env.AgreesBut z env') {name : String} (hname : name ≠ z) {v : Value}
    (hv : v.Avoids z) :
    (∃ e, env.define name v = .error e ∧ env'.define name v = .error e) ∨
      ∃ env₁ env₁', env.define name v = .ok env₁ ∧ env'.define name v = .ok env₁' ∧
        env₁.AgreesBut z env₁' := by
  unfold Environment.AgreesBut at h
  rw [frames_eq_cons, frames_eq_cons env'] at h
  obtain ⟨hcurrent, houter⟩ := List.forall₂_cons.1 h
  rw [define_eq, define_eq]
  rcases hcurrent.bind hname hv with ⟨e, he, he'⟩ | ⟨f, g, hf, hg, hfg⟩
  · exact .inl ⟨e, by rw [he]; rfl, by rw [he']; rfl⟩
  · refine .inr ⟨_, _, by rw [hf]; rfl, by rw [hg]; rfl, ?_⟩
    unfold Environment.AgreesBut
    rw [frames_eq_cons, frames_eq_cons (env'.withCurrent g)]
    simp only [current_withCurrent, frames_tail_withCurrent]
    exact .cons hfg houter

/-- One more binding in some frame. -/
theorem of_bind {w : Value} {f g : Frame} {inner outer : List Frame}
    (hvalues : env.AllIn (Avoids z)) (hframes : env.frames = inner ++ f :: outer)
    (hbind : f.bind z w = .ok g) (hframes' : env'.frames = inner ++ g :: outer) :
    env.AgreesBut z env' := by
  unfold AllIn at hvalues
  rw [hframes] at hvalues
  obtain ⟨hinner, hothers⟩ := List.forall_mem_append.1 hvalues
  obtain ⟨hf, houter⟩ := List.forall_mem_cons.1 hothers
  unfold Environment.AgreesBut
  rw [hframes, hframes']
  exact List.rel_append (List.forall₂_same.2 fun k hk => .refl (hinner k hk))
    (.cons (.bind_self hf hbind) (List.forall₂_same.2 fun k hk => .refl (houter k hk)))

end Environment.AgreesBut

/-! ## Two evaluations over such frames -/

/-- States that agree in everything but the bindings of one name. -/
structure Interp.AgreesBut (z : String) (s s' : Interp) : Prop where
  env : s.env.AgreesBut z s'.env
  sink : s.sink = s'.sink

theorem Interp.AgreesBut.symm {z : String} {s s' : Interp} (h : s.AgreesBut z s') :
    s'.AgreesBut z s :=
  ⟨h.env.symm, h.sink.symm⟩

/-- From states that agree in all but the name, the second evaluation ends as the first does, in
states that agree again. The name is not mentioned in the result. -/
def Ignores (z : String) {α : Type} [Result α] (x y : EvalM α) : Prop :=
  ∀ s s', s.AgreesBut z s' → ∀ r t, x s = some (r, t) →
    (∃ t', y s' = some (r, t') ∧ t.AgreesBut z t') ∧ ∀ a, r = .ok a → Result.AllIn (Avoids z) a

namespace Ignores

variable {z : String} {α β : Type} [Result α] [Result β] {x y : EvalM α}

theorem pure {a : α} (ha : Result.AllIn (Avoids z) a) : Ignores z (pure a : EvalM α) (pure a) := by
  intro s s' hs r t h
  cases h
  refine ⟨⟨s', rfl, hs⟩, ?_⟩
  rintro _ ⟨⟩
  exact ha

theorem throw (e : EvalError) : Ignores z (throw e : EvalM α) (throw e) := by
  intro s s' hs r t h
  cases h
  exact ⟨⟨s', rfl, hs⟩, nofun⟩

theorem bind {f g : α → EvalM β} (hxy : Ignores z x y)
    (hfg : ∀ a, Result.AllIn (Avoids z) a → Ignores z (f a) (g a)) :
    Ignores z (x >>= f) (y >>= g) := by
  intro s s' hs r u h
  rcases Stateful.bind_eq_some h with ⟨e, he, rfl⟩ | ⟨a, t, ha, hu⟩
  · obtain ⟨⟨u', hu', hagrees⟩, -⟩ := hxy s s' hs _ u he
    exact ⟨⟨u', Stateful.bind_of_error hu', hagrees⟩, nofun⟩
  · obtain ⟨⟨t', ht', hagrees⟩, havoids⟩ := hxy s s' hs _ t ha
    obtain ⟨⟨u', hu', hagrees'⟩, havoids'⟩ := hfg a (havoids a rfl) t t' hagrees r u hu
    exact ⟨⟨u', (Stateful.bind_of_ok ht').trans hu', hagrees'⟩, havoids'⟩

theorem lookup {name : String} (hname : name ≠ z) :
    Ignores z (EvalM.lookup name) (EvalM.lookup name) := by
  intro s s' hs r t h
  obtain ⟨hlookup, havoids⟩ := hs.env.lookup hname
  rw [EvalM.run_lookup] at h
  cases h
  exact ⟨⟨s', by rw [EvalM.run_lookup, hlookup], hs⟩, havoids⟩

theorem define {name : String} (hname : name ≠ z) {v : Value} (hv : v.Avoids z) :
    Ignores z (EvalM.define name v) (EvalM.define name v) := by
  intro s s' hs r t h
  rw [EvalM.run_define] at h
  rcases hs.env.define hname hv with ⟨e, he, he'⟩ | ⟨env, env', he, he', henv⟩
  · rw [he] at h
    cases h
    exact ⟨⟨s', by rw [EvalM.run_define, he'], hs⟩, nofun⟩
  · rw [he] at h
    cases h
    exact ⟨⟨{ s' with env := env' }, by rw [EvalM.run_define, he'], henv, hs.sink⟩,
      fun _ _ => trivial⟩

theorem writeLine (pieces : List String) :
    Ignores z (EvalM.writeLine pieces) (EvalM.writeLine pieces) := by
  intro s s' hs r t h
  rw [EvalM.run_writeLine] at h
  cases h
  refine ⟨⟨{ s' with sink := (s.sink.writeLine pieces).2 }, ?_, hs.env, rfl⟩, fun _ _ => trivial⟩
  rw [EvalM.run_writeLine, ← hs.sink]

theorem inCall {x y : EvalM Value} (hxy : Ignores z x y) :
    Ignores z (EvalM.inCall x) (EvalM.inCall y) := by
  intro s s' hs r u h
  obtain ⟨t, ht, rfl⟩ := EvalM.inCall_ok h
  obtain ⟨⟨t', ht', hagrees⟩, havoids⟩ := hxy { s with env := s.env.push }
    { s' with env := s'.env.push } ⟨hs.env.push, hs.sink⟩ r t ht
  refine ⟨⟨{ t' with env := t'.env.pop }, ?_, hagrees.env.pop, hagrees.sink⟩, havoids⟩
  rw [EvalM.run_inCall, ht']
  rfl

/-- What ignores a name does not end from one of two states only. -/
theorem eq_none (h : Ignores z x x) {s s' : Interp} (hs : s.AgreesBut z s') (hnone : x s = none) :
    x s' = none := by
  cases h' : x s' with
  | none => rfl
  | some p =>
    obtain ⟨⟨t, ht, -⟩, -⟩ := h s' s hs.symm p.1 p.2 h'
    rw [hnone] at ht
    cases ht

end Ignores

/-- All operations ignore a name as long as it is mentioned in none of their values, so all of
evaluation does. -/
theorem congruence_ignores (z : String) :
    CongruenceOn (Avoids z) fun _ _ x y => Ignores z x y where
  values := valueClass_avoids z
  pure := Ignores.pure
  throw := Ignores.throw
  bind := Ignores.bind
  lookup hname := Ignores.lookup hname
  define hname hv := Ignores.define hname hv
  writeLine := Ignores.writeLine
  inCall := Ignores.inCall
  unfinished _ := fun _ _ _ _ _ h => nomatch h

/-- Take a name that is bound in no frame and mentioned neither in an expression nor in any value that
is bound. It can be bound to any value in any frame, and then the evaluation of the expression ends if
it did before, with the same result and the same text printed, and every other name is bound alike
in each frame afterwards. -/
theorem unmentioned_binding_does_not_matter (limits : Limits) (depth : Nat) {e : Value} {z : String}
    (he : ¬ e.Mentions z) {s : Interp}
    (hvalues : ∀ f ∈ s.env.frames, ∀ name v, f.get? name = some v → ¬ v.Mentions z)
    (hunbound : ∀ f ∈ s.env.frames, f.contains z = false) {inner outer : List Frame} {f : Frame}
    (hframes : s.env.frames = inner ++ f :: outer) (w : Value) :
    ∃ g, f.bind z w = .ok g ∧ ∀ s' : Interp, s'.env.frames = inner ++ g :: outer →
      s'.sink = s.sink →
        (limits.evalAt depth e s = none ∧ limits.evalAt depth e s' = none) ∨
        ∃ r t t', limits.evalAt depth e s = some (r, t) ∧
          limits.evalAt depth e s' = some (r, t') ∧ t.sink = t'.sink ∧
          List.Forall₂ (fun f g => ∀ name, name ≠ z → f.get? name = g.get? name)
            t.env.frames t'.env.frames := by
  have hf : f ∈ s.env.frames := hframes ▸ List.mem_append_right _ List.mem_cons_self
  obtain ⟨g, hbind⟩ := Frame.exists_bind_of_not_contains (hunbound f hf) w
  refine ⟨g, hbind, fun s' hframes' hsink => ?_⟩
  have hagrees : s.AgreesBut z s' :=
    ⟨.of_bind hvalues hframes hbind hframes', hsink.symm⟩
  have hignores : Ignores z (limits.evalAt depth e) (limits.evalAt depth e) :=
    (congruence_ignores z).eval_self limits _ he
  cases h : limits.evalAt depth e s with
  | none => exact .inl ⟨rfl, hignores.eq_none hagrees h⟩
  | some p =>
    obtain ⟨r, t⟩ := p
    obtain ⟨⟨t', ht', henv, hsink'⟩, -⟩ := hignores s s' hagrees r t h
    exact .inr ⟨r, t, t', rfl, ht', hsink', henv.imp fun _ _ => Frame.AgreesBut.get?⟩

/-- `((lambda (x) (print x) (car x)) 5)` prints and then fails, over a global frame in which `y` is
bound or not. -/
theorem call_over_unmentioned_binding :
    let e := Value.ofList [.ofList [.symbol "lambda", .ofList [.symbol "x"],
      .ofList [.symbol "print", .symbol "x"], .ofList [.symbol "car", .symbol "x"]], .int 5]
    let s := callerOfBuiltins ["lambda", "print", "car"]
    ∃ g, s.env.global.bind "y" (.symbol "car") = .ok g ∧
      ∃ t t', ({} : Limits).evalAt 0 e s =
          some (.error (.typeMismatch (.notPair "car" (.int 5))), t) ∧
        ({} : Limits).evalAt 0 e { s with env := { s.env with global := g } } =
          some (.error (.typeMismatch (.notPair "car" (.int 5))), t') ∧
        t.sink = t'.sink ∧ List.Forall₂ (fun f g => ∀ name, name ≠ "y" → f.get? name = g.get? name)
          t.env.frames t'.env.frames := by
  intro e s
  have hvalues : ∀ f ∈ s.env.frames, ∀ name v, f.get? name = some v → ¬ v.Mentions "y" := by
    refine List.forall_mem_cons.2 ⟨fun name v hv => ?_, List.forall_mem_singleton.2 ?_⟩
    · rw [Frame.get?_call] at hv
      cases hv
    · intro name v hv
      have hall : ∀ p ∈ ["lambda", "print", "car"].map fun name => (name, Value.symbol name),
          ¬ p.2.Mentions "y" := by decide
      exact hall _ (Frame.mem_of_get?_ofChain hv)
  obtain ⟨g, hbind, hall⟩ := unmentioned_binding_does_not_matter {} 0
    (by decide : ¬ e.Mentions "y") hvalues (by decide +kernel)
    (rfl : s.env.frames = [.call] ++ s.env.global :: []) (.symbol "car")
  have hends : (({} : Limits).evalAt 0 e s).map Prod.fst =
      some (.error (.typeMismatch (.notPair "car" (.int 5)))) := by decide +kernel
  obtain ⟨t, h⟩ := Stateful.exists_of_result hends
  rcases hall { s with env := { s.env with global := g } } rfl rfl with ⟨hnone, -⟩ |
    ⟨r', u, t', hu, ht', hsink, hframes⟩
  · rw [h] at hnone
    cases hnone
  · rw [h] at hu
    cases hu
    exact ⟨g, hbind, t, t', h, ht', hsink, hframes⟩

end DynLisp
