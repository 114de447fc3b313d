import DynLisp.Proofs.Evaluation.Frames

/-!
# What an evaluation sees of the environment

An evaluation sees of the frames only what names mean, and which names the innermost frame binds:
states that agree in this (`Environment.LooksLike`) and whose sinks take everything
(`Sink.TakesAll`) are taken to states that agree in it again, with the same result and the same
output (`evaluation_sees_visible_bindings_only`). How many frames there are, what is hidden in them
and in which order they list their bindings makes no difference. Procedures that were made alike in
both runs are the same value.

Two runs are kept in step by `InStep`. Both only grow their innermost frames, so when they leave a
call they are back in the environments that they called from, and these look alike.
-/

namespace DynLisp

namespace Sink

/-- Whatever is written to the sink, it takes all of it. -/
structure TakesAll (s : Sink) : Prop where
  unlimited : s.capacity = none
  flushes : s.flushFails = false

/-- The sink after it took some bytes. -/
def took (s : Sink) (out : ByteArray) : Sink :=
  { s with written := s.written ++ out }

theorem TakesAll.took {s : Sink} (h : s.TakesAll) (out : ByteArray) : (s.took out).TakesAll :=
  ⟨h.unlimited, h.flushes⟩

theorem took_took (s : Sink) (out out' : ByteArray) :
    (s.took out).took out' = s.took (out ++ out') := by
  unfold took
  rw [ByteArray.append_assoc]

theorem took_empty (s : Sink) : s.took .empty = s := by
  unfold took
  rw [ByteArray.append_empty]

theorem writeLine_of_takesAll {s : Sink} (h : s.TakesAll) (pieces : List String) :
    s.writeLine pieces = (.ok (), s.took (lineOf pieces).toUTF8) := by
  have hroom : ∀ n, s.room n = n := fun n => by
    unfold room
    rw [h.unlimited]
  have hwrite : s.write (lineOf pieces) = (.ok (), s.took (lineOf pieces).toUTF8) := by
    unfold write
    simp only [hroom, if_pos, ByteArray.extract_zero_size]
    rfl
  have hflush : (s.took (lineOf pieces).toUTF8).flush = .ok () :=
    if_neg (by rw [(h.took _).flushes]; exact Bool.false_ne_true)
  rw [writeLine_eq, hwrite]
  simp only [hflush]

end Sink

/-- A line is taken whole, and the write succeeds. -/
theorem EvalM.run_writeLine_of_takesAll {s : Interp} (h : s.sink.TakesAll) (pieces : List String) :
    writeLine pieces s =
      some (.ok (), { s with sink := s.sink.took (Sink.lineOf pieces).toUTF8 }) := by
  rw [run_writeLine, Sink.writeLine_of_takesAll h]
  rfl

namespace Environment

variable {env env' : Environment}

/-- Every name means the same in both environments, and their innermost frames bind the same
names. -/
structure LooksLike (env env' : Environment) : Prop where
  lookup : ∀ name, env.lookup name = env'.lookup name
  bound : ∀ name, env.current.contains name = env'.current.contains name

theorem LooksLike.push (h : env.LooksLike env') : env.push.LooksLike env'.push where
  lookup name := by
    rw [lookup_eq_iff, get?_push, get?_push, ← lookup_eq_iff]
    exact h.lookup name
  bound _ := rfl

/-- A name can be defined in both environments or in neither. -/
theorem LooksLike.define (h : env.LooksLike env') (name : String) (v : Value) :
    (∃ e, env.define name v = .error e ∧ env'.define name v = .error e) ∨
      ∃ env₁ env₁', env.define name v = .ok env₁ ∧ env'.define name v = .ok env₁' ∧
        env₁.LooksLike env₁' := by
  cases hc : env.current.contains name with
  | true =>
    have hc' := (h.bound name).symm.trans hc
    exact .inl ⟨_, define_of_contains hc v, define_of_contains hc' v⟩
  | false =>
    have hc' := (h.bound name).symm.trans hc
    obtain ⟨env₁, h₁⟩ := exists_define_of_not_contains hc v
    obtain ⟨env₁', h₁'⟩ := exists_define_of_not_contains hc' v
    refine .inr ⟨env₁, env₁', h₁, h₁', fun name' => ?_, fun name' => ?_⟩
    · have hget := lookup_eq_iff.1 (h.lookup name')
      rw [lookup_eq_iff, get?_of_define h₁, get?_of_define h₁', hget]
    · rw [contains_current_of_define h₁, contains_current_of_define h₁', h.bound name']

end Environment

/-! ## Two runs in step -/

/-- States that an evaluation cannot tell apart. -/
structure Interp.LooksLike (s s' : Interp) : Prop where
  env : s.env.LooksLike s'.env
  takes : s.sink.TakesAll
  takes' : s'.sink.TakesAll

/-- From states that look alike, two runs have gone on alike: they printed the same, their
environments look alike again, and on either side only the innermost frame has grown. -/
structure InStep (s s' t t' : Interp) : Prop where
  env : t.env.LooksLike t'.env
  printed : ∃ out, t.sink = s.sink.took out ∧ t'.sink = s'.sink.took out
  grown : s.env.GrownInside t.env
  grown' : s'.env.GrownInside t'.env

namespace InStep

variable {s s' t t' u u' : Interp}

theorem refl (h : s.LooksLike s') : InStep s s' s s' where
  env := h.env
  printed := ⟨.empty, (Sink.took_empty _).symm, (Sink.took_empty _).symm⟩
  grown := .refl _
  grown' := .refl _

theorem looksLike (h : InStep s s' t t') (hs : s.LooksLike s') : t.LooksLike t' := by
  obtain ⟨out, hout, hout'⟩ := h.printed
  exact ⟨h.env, hout ▸ hs.takes.took out, hout' ▸ hs.takes'.took out⟩

theorem trans (h : InStep s s' t t') (h' : InStep t t' u u') : InStep s s' u u' where
  env := h'.env
  printed := by
    obtain ⟨out, ht, ht'⟩ := h.printed
    obtain ⟨out', hu, hu'⟩ := h'.printed
    refine ⟨out ++ out', ?_, ?_⟩
    · rw [hu, ht, Sink.took_took]
    · rw [hu', ht', Sink.took_took]
  grown := h.grown.trans h'.grown
  grown' := h.grown'.trans h'.grown'

end InStep

/-- From states that look alike, the second evaluation ends as the first does, in step with it. -/
def SeesAlike {α : Type} (x y : EvalM α) : Prop :=
  ∀ s s', s.LooksLike s' → ∀ r t, x s = some (r, t) → ∃ t', y s' = some (r, t') ∧ InStep s s' t t'

namespace SeesAlike

theorem const {α : Type} {x y : EvalM α} {r : Except EvalError α} (hx : ∀ s, x s = some (r, s))
    (hy : ∀ s, y s = some (r, s)) : SeesAlike x y := by
  intro s s' hs r' t h
  rw [hx] at h
  cases h
  exact ⟨s', hy s', .refl hs⟩

theorem bind {α β : Type} {x y : EvalM α} {f g : α → EvalM β} (hxy : SeesAlike x y)
    (hfg : ∀ a, SeesAlike (f a) (g a)) : SeesAlike (x >>= f) (y >>= g) := by
  intro s s' hs r u h
  rcases Stateful.bind_eq_some h with ⟨e, he, rfl⟩ | ⟨a, t, ha, hu⟩
  · obtain ⟨u', hu', hstep⟩ := hxy s s' hs _ u he
    exact ⟨u', Stateful.bind_of_error hu', hstep⟩
  · obtain ⟨t', ht', hstep⟩ := hxy s s' hs _ t ha
    obtain ⟨u', hu', hstep'⟩ := hfg a t t' (hstep.looksLike hs) r u hu
    exact ⟨u', (Stateful.bind_of_ok ht').trans hu', hstep.trans hstep'⟩

theorem lookup (name : String) : SeesAlike (EvalM.lookup name) (EvalM.lookup name) := by
  intro s s' hs r t h
  rw [EvalM.run_lookup] at h
  cases h
  exact ⟨s', by rw [EvalM.run_lookup, hs.env.lookup name], .refl hs⟩

theorem define (name : String) (v : Value) :
    SeesAlike (EvalM.define name v) (EvalM.define name v) := by
  intro s s' hs r t h
  rw [EvalM.run_define] at h
  rcases hs.env.define name v with ⟨e, he, he'⟩ | ⟨env, env', he, he', henv⟩
  · rw [he] at h
    cases h
    exact ⟨s', by rw [EvalM.run_define, he'], .refl hs⟩
  · rw [he] at h
    cases h
    refine ⟨{ s' with env := env' }, by rw [EvalM.run_define, he'], ?_⟩
    exact ⟨henv, (InStep.refl hs).printed, .define he, .define he'⟩

theorem writeLine (pieces : List String) :
    SeesAlike (EvalM.writeLine pieces) (EvalM.writeLine pieces) := by
  intro s s' hs r t h
  rw [EvalM.run_writeLine_of_takesAll hs.takes] at h
  cases h
  refine ⟨_, EvalM.run_writeLine_of_takesAll hs.takes' pieces, ?_⟩
  exact ⟨hs.env, ⟨_, rfl, rfl⟩, .refl _, .refl _⟩

/-- When both calls are left, the environments are those in which they were entered. -/
theorem inCall {α : Type} {x y : EvalM α} (hxy : SeesAlike x y) :
    SeesAlike (EvalM.inCall x) (EvalM.inCall y) := by
  intro s s' hs r u h
  obtain ⟨t, ht, rfl⟩ := EvalM.inCall_ok h
  obtain ⟨t', ht', hstep⟩ := hxy { s with env := s.env.push } { s' with env := s'.env.push }
    ⟨hs.env.push, hs.takes, hs.takes'⟩ r t ht
  refine ⟨{ t' with env := t'.env.pop }, by rw [EvalM.run_inCall, ht']; rfl, ?_⟩
  have hpop : t.env.pop = s.env := hstep.grown.pop_of_push
  have hpop' : t'.env.pop = s'.env := hstep.grown'.pop_of_push
  rw [hpop, hpop']
  exact ⟨hs.env, hstep.printed, .refl _, .refl _⟩

end SeesAlike

/-- No operation of evaluation tells states apart that look alike, so none of evaluation does. -/
theorem congruence_seesAlike : Congruence fun _ x y => SeesAlike x y where
  pure _ := .const (fun _ => rfl) (fun _ => rfl)
  throw _ := .const (fun _ => rfl) (fun _ => rfl)
  bind := SeesAlike.bind
  lookup := SeesAlike.lookup
  define := SeesAlike.define
  writeLine := SeesAlike.writeLine
  inCall := SeesAlike.inCall
  unfinished _ := fun _ _ _ _ _ h => nomatch h

/-- Take two states in which every name means the same and the innermost frames bind the same names,
however their environments differ otherwise, and whose sinks take everything. If an evaluation ends
from one of them, then it ends from the other with the same result; it prints the same, and every
name means the same afterwards and is bound in both innermost frames or in neither. -/
theorem evaluation_sees_visible_bindings_only (limits : Limits) (depth : Nat) (e : Value)
    {s s' t : Interp} {r : Except EvalError Value}
    (hlookup : ∀ name, s.env.lookup name = s'.env.lookup name)
    (hbound : ∀ name, s.env.current.contains name = s'.env.current.contains name)
    (hsink : s.sink.TakesAll) (hsink' : s'.sink.TakesAll)
    (h : limits.evalAt depth e s = some (r, t)) :
    ∃ t' out, limits.evalAt depth e s' = some (r, t') ∧
      t.sink.written = s.sink.written ++ out ∧ t'.sink.written = s'.sink.written ++ out ∧
      (∀ name, t.env.lookup name = t'.env.lookup name) ∧
      ∀ name, t.env.current.contains name = t'.env.current.contains name := by
  have hsees : SeesAlike (limits.evalAt depth e) (limits.evalAt depth e) :=
    congruence_seesAlike.eval_self limits _ e
  obtain ⟨t', ht', hstep⟩ := hsees s s' ⟨⟨hlookup, hbound⟩, hsink, hsink'⟩ r t h
  obtain ⟨out, hout, hout'⟩ := hstep.printed
  refine ⟨t', out, ht', ?_, ?_, hstep.env.lookup, hstep.env.bound⟩
  · rw [hout]
    rfl
  · rw [hout']
    rfl

/-- A frame with all its bindings in one chain. -/
def Frame.ofChain (scope : Scope) (chain : List (String × Value)) : Frame where
  scope
  entries := ⟨1, #[chain], chain.length, Nat.one_pos, .inr rfl⟩

theorem Frame.get?_ofChain (scope : Scope) (chain : List (String × Value)) (name : String) :
    (ofChain scope chain).get? name = (chain.find? (·.1 == name)).map Prod.snd := by
  show ((#[chain].getD ((bucketHash name).toNat % 1) []).find? _).map _ = _
  rw [Nat.mod_one]
  rfl

theorem Frame.mem_of_get?_ofChain {scope : Scope} {chain : List (String × Value)} {name : String}
    {v : Value} (h : (ofChain scope chain).get? name = some v) : (name, v) ∈ chain := by
  rw [get?_ofChain] at h
  obtain ⟨⟨name', w⟩, hfind, rfl⟩ := Option.map_eq_some_iff.1 h
  have hname := List.find?_some hfind
  obtain rfl : name' = name := eq_of_beq hname
  exact List.mem_of_find?_eq_some hfind

/-- The caller over one more frame, which hides that `car` has another value in the global frame. -/
def callerOverHidden : Interp where
  env := {
    global := .ofChain .global [("car", .int 7), ("lambda", .symbol "lambda"),
      ("define", .symbol "define")]
    locals := [.call, .ofChain .local [("car", .symbol "car")]] }

theorem failingCall_over_hidden :
    ∃ r t t' out, ({} : Limits).evalAt 0 failingCall callerInFrame = some (r, t) ∧
      ({} : Limits).evalAt 0 failingCall callerOverHidden = some (r, t') ∧
      t.sink.written = callerInFrame.sink.written ++ out ∧
      t'.sink.written = callerOverHidden.sink.written ++ out ∧
      (∀ name, t.env.lookup name = t'.env.lookup name) ∧
      ∀ name, t.env.current.contains name = t'.env.current.contains name := by
  have hlookup : ∀ name, callerInFrame.env.lookup name = callerOverHidden.env.lookup name := by
    intro name
    rw [Environment.lookup_eq_iff, Environment.get?_eq, Environment.get?_eq]
    show List.findSome? _ [.call, Frame.ofChain .global _] =
      List.findSome? _ [.call, Frame.ofChain .local _, Frame.ofChain .global _]
    simp only [List.findSome?_cons, Frame.get?_call, Frame.get?_ofChain]
    by_cases hcar : "car" = name
    · subst hcar
      decide
    · -- The chains differ in the order of the other two.
      have hcar' := beq_false_of_ne hcar
      cases hlambda : "lambda" == name <;> cases hdefine : "define" == name <;>
        simp [hcar', hlambda, hdefine]
  have hends : (({} : Limits).evalAt 0 failingCall callerInFrame).isSome = true := by decide +kernel
  obtain ⟨⟨r, t⟩, h⟩ := Option.isSome_iff_exists.1 hends
  obtain ⟨t', out, hvisible⟩ := evaluation_sees_visible_bindings_only {} 0 failingCall
    hlookup (fun _ => rfl) ⟨rfl, rfl⟩ ⟨rfl, rfl⟩ h
  exact ⟨r, t, t', out, h, hvisible⟩

end DynLisp
