import DynLisp.Proofs.Scope.Lookup

/-!
# Frames that only grow

A frame grows by bindings of names that it does not bind yet (`Frame.Grown`), so that every name
keeps the value it has (`Frame.Grown.get?`). Of an environment only the innermost frame may grow
(`Environment.GrownInside`):

* `GrownInside.define`: a definition is one new binding in the innermost frame;
* `GrownInside.pop_of_push`: what a call did to its own frame is gone when the call is left.
-/

namespace DynLisp

namespace Frame

/-- The frame with some more bindings, made one after the other. -/
def bindAll (f : Frame) (added : List (String × Value)) : Except EvalError Frame :=
  added.foldlM (fun f (name, v) => f.bind name v) f

/-- The second frame is the first with further bindings of names that it did not bind. -/
def Grown (f g : Frame) : Prop :=
  ∃ added : List (String × Value), (∀ b ∈ added, f.get? b.1 = none) ∧ f.bindAll added = .ok g

/-- A name that has a value keeps it. -/
theorem get?_of_bind_of_some {f g : Frame} {name name' : String} {v w : Value}
    (h : f.bind name v = .ok g) (hw : f.get? name' = some w) : g.get? name' = some w := by
  rw [get?_of_bind h, if_neg, hw]
  rintro rfl
  rw [get?_eq_none_iff.2 (contains_of_bind h)] at hw
  cases hw

theorem bindAll_cons (f : Frame) (b : String × Value) (added : List (String × Value)) :
    f.bindAll (b :: added) = f.bind b.1 b.2 >>= fun g => g.bindAll added := by
  simp only [bindAll, List.foldlM_cons]

theorem bindAll_append (f : Frame) (added added' : List (String × Value)) :
    f.bindAll (added ++ added') = f.bindAll added >>= fun g => g.bindAll added' := by
  simp only [bindAll, List.foldlM_append]

theorem get?_of_bindAll {f g : Frame} {added : List (String × Value)} {name : String} {w : Value}
    (h : f.bindAll added = .ok g) (hw : f.get? name = some w) : g.get? name = some w := by
  induction added generalizing f with
  | nil => cases h; exact hw
  | cons b added ih =>
    rw [bindAll_cons] at h
    cases hb : f.bind b.1 b.2 with
    | error e => rw [hb] at h; cases h
    | ok f' =>
      rw [hb] at h
      exact ih h (get?_of_bind_of_some hb hw)

/-- Every name that is bound keeps its value. -/
theorem Grown.get? {f g : Frame} (h : f.Grown g) {name : String} {w : Value}
    (hw : f.get? name = some w) : g.get? name = some w := by
  obtain ⟨added, -, hadded⟩ := h
  exact get?_of_bindAll hadded hw

theorem Grown.refl (f : Frame) : f.Grown f :=
  ⟨[], fun _ hb => (nomatch hb), rfl⟩

theorem Grown.trans {f g k : Frame} (h : f.Grown g) (h' : g.Grown k) : f.Grown k := by
  obtain ⟨added', hnew', hadded'⟩ := h'
  have hkeep : ∀ name, g.get? name = none → f.get? name = none := by
    intro name hnone
    cases hw : f.get? name with
    | none => rfl
    | some w => rw [h.get? hw] at hnone; cases hnone
  obtain ⟨added, hnew, hadded⟩ := h
  refine ⟨added ++ added', fun b hb => ?_, ?_⟩
  · rcases List.mem_append.1 hb with hb | hb
    · exact hnew b hb
    · exact hkeep _ (hnew' b hb)
  · rw [bindAll_append, hadded]
    exact hadded'

theorem Grown.bind {f g : Frame} {name : String} {v : Value} (h : f.bind name v = .ok g) :
    f.Grown g := by
  refine ⟨[(name, v)], fun b hb => ?_, ?_⟩
  · rw [List.mem_singleton.1 hb]
    exact get?_eq_none_iff.2 (contains_of_bind h)
  · rw [bindAll_cons, h]
    rfl

end Frame

namespace Environment

/-- The second environment has the frames of the first, of which the innermost has grown. -/
structure GrownInside (env env' : Environment) : Prop where
  depth : env'.depth = env.depth
  outer : env'.frames.tail = env.frames.tail
  innermost : env.current.Grown env'.current

theorem GrownInside.refl (env : Environment) : env.GrownInside env :=
  ⟨rfl, rfl, .refl _⟩

theorem GrownInside.trans {env₁ env₂ env₃ : Environment} (h : env₁.GrownInside env₂)
    (h' : env₂.GrownInside env₃) : env₁.GrownInside env₃ :=
  ⟨h'.depth.trans h.depth, h'.outer.trans h.outer, h.innermost.trans h'.innermost⟩

theorem GrownInside.define {env env' : Environment} {name : String} {v : Value}
    (h : env.define name v = .ok env') : env.GrownInside env' := by
  obtain ⟨g, hg, rfl⟩ := define_eq_ok h
  have houter := frames_tail_withCurrent env g
  refine ⟨?_, houter, ?_⟩
  · rw [← length_frames, ← length_frames, frames_eq_cons, houter, frames_eq_cons env]
    rfl
  · rw [current_withCurrent]
    exact .bind hg

/-- What grew in the frame of a call is gone when the call is left. -/
theorem GrownInside.pop_of_push {env env' : Environment} (h : env.push.GrownInside env') :
    env'.pop = env := by
  obtain ⟨global, locals⟩ := env
  obtain ⟨global', locals'⟩ := env'
  obtain ⟨hdepth, houter, -⟩ := h
  cases locals' with
  | nil => simp [Environment.depth, push] at hdepth
  | cons f fs =>
    simp only [frames, push, List.cons_append, List.tail_cons] at houter
    obtain ⟨rfl, hglobal⟩ := List.append_inj' houter rfl
    cases hglobal
    rfl

end Environment

end DynLisp
