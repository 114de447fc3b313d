import DynLisp.Proofs.ChainMap.Lookup
import DynLisp.Scope.Environment

/-!
# Definitions and what names mean after them

A frame binds a name unless it binds it already (`Frame.bind_of_contains`,
`Frame.exists_bind_of_not_contains`), and after that the name has the value it was bound to
(`Frame.get?_of_bind`). A definition in an environment is that in its innermost frame
(`Environment.define_of_contains`, `Environment.exists_define_of_not_contains`), so all names but
the one that was defined mean what they did before:

* `Environment.define_eq_ok`: the frames after a definition;
* `Environment.get?_of_define`: the names after a definition;
* `Environment.get?_push`: entering a call changes the meaning of no name.
-/

namespace DynLisp

namespace Frame

variable {f g : Frame} {name : String} {v : Value}

theorem get?_eq_none_iff : f.get? name = none ↔ f.contains name = false :=
  ChainMap.get?_eq_none_iff_contains

theorem bind_of_contains (h : f.contains name = true) (v : Value) :
    f.bind name v = .error (.duplicate name) := by
  have hnone : f.entries.insertNew? name v = none := if_pos h
  unfold bind
  rw [hnone]

theorem exists_bind_of_not_contains (h : f.contains name = false) (v : Value) :
    ∃ g, f.bind name v = .ok g := by
  obtain ⟨entries, hentries⟩ := ChainMap.exists_insertNew? h v
  unfold bind
  rw [hentries]
  exact ⟨_, rfl⟩

/-- A binding is a new entry of the frame, whose scope stays. -/
theorem bind_eq_ok (h : f.bind name v = .ok g) :
    f.entries.insertNew? name v = some g.entries ∧ g.scope = f.scope := by
  unfold bind at h
  split at h
  · rename_i entries he
    cases h
    exact ⟨he, rfl⟩
  · cases h

theorem contains_of_bind (h : f.bind name v = .ok g) : f.contains name = false :=
  ChainMap.contains_of_insertNew? (bind_eq_ok h).1

/-- A name that is bound has the value it was bound to, and all others mean what they did. -/
theorem get?_of_bind (h : f.bind name v = .ok g) (name' : String) :
    g.get? name' = if name = name' then some v else f.get? name' :=
  ChainMap.get?_of_insertNew?_self (bind_eq_ok h).1 name'

theorem contains_eq (f : Frame) (name : String) : f.contains name = (f.get? name).isSome := rfl

/-- A frame binds what it bound before, and the name that is bound. -/
theorem contains_of_bind_eq (h : f.bind name v = .ok g) (name' : String) :
    g.contains name' = (name == name' || f.contains name') := by
  rw [contains_eq, get?_of_bind h, contains_eq]
  by_cases hn : name = name'
  · rw [if_pos hn, beq_iff_eq.2 hn]
    rfl
  · rw [if_neg hn, beq_false_of_ne hn]
    rfl

theorem get?_call (name : String) : call.get? name = none := rfl

end Frame

namespace Environment

variable {env env' : Environment} {name : String} {v : Value}

/-- The innermost frame is the first of all. -/
theorem frames_eq_cons (env : Environment) : env.frames = env.current :: env.frames.tail := by
  obtain ⟨global, locals⟩ := env
  cases locals <;> rfl

theorem get?_eq_current_or (env : Environment) (name : String) :
    env.get? name = (env.current.get? name).or (env.frames.tail.findSome? (·.get? name)) := by
  rw [get?_eq, frames_eq_cons, List.findSome?_cons, List.tail_cons]
  cases env.current.get? name <;> rfl

theorem get?_eq_locals_or (env : Environment) (name : String) :
    env.get? name = (env.locals.findSome? (·.get? name)).or (env.global.get? name) := by
  rw [get?_eq, frames, List.findSome?_append, List.findSome?_singleton]

/-- Two environments look a name up alike if it has the same value in both. -/
theorem lookup_eq_iff : env.lookup name = env'.lookup name ↔ env.get? name = env'.get? name := by
  unfold lookup
  cases env.get? name <;> cases env'.get? name <;> simp

theorem lookup_eq_ok_iff_get? : env.lookup name = .ok v ↔ env.get? name = some v := by
  unfold lookup
  cases env.get? name <;> simp

/-- A name means what the innermost frame that binds it says. -/
theorem lookup_eq_ok_iff : env.lookup name = .ok v ↔
    ∃ inner f outer, env.frames = inner ++ f :: outer ∧ f.get? name = some v ∧
      ∀ g ∈ inner, g.contains name = false := by
  rw [lookup_eq_ok_iff_get?, get?_eq, List.findSome?_eq_some_iff]
  simp only [Frame.get?_eq_none_iff]

/-- A name that no frame binds means nothing, and there is no other reason to fail. -/
theorem lookup_eq_error_iff {e : EvalError} : env.lookup name = .error e ↔
    e = .unbound name ∧ ∀ f ∈ env.frames, f.contains name = false := by
  have hget : env.lookup name = .error e ↔ e = .unbound name ∧ env.get? name = none := by
    unfold lookup
    cases env.get? name <;> simp [eq_comm]
  rw [hget, get?_eq, List.findSome?_eq_none_iff]
  simp only [Frame.get?_eq_none_iff]

/-! ## Definitions -/

/-- The environment with another innermost frame. -/
def withCurrent (env : Environment) (g : Frame) : Environment :=
  match env.locals with
  | [] => { env with global := g }
  | _ :: fs => { env with locals := g :: fs }

@[simp] theorem current_withCurrent (env : Environment) (g : Frame) :
    (env.withCurrent g).current = g := by
  obtain ⟨global, locals⟩ := env
  cases locals <;> rfl

@[simp] theorem frames_tail_withCurrent (env : Environment) (g : Frame) :
    (env.withCurrent g).frames.tail = env.frames.tail := by
  obtain ⟨global, locals⟩ := env
  cases locals <;> rfl

/-- A definition binds a name in the innermost frame. -/
theorem define_eq (env : Environment) (name : String) (v : Value) :
    env.define name v = (env.current.bind name v).map env.withCurrent := by
  obtain ⟨global, locals⟩ := env
  cases locals with
  | nil =>
    simp only [define, current, List.headD_nil]
    cases global.bind name v <;> rfl
  | cons f fs =>
    simp only [define, current, List.headD_cons]
    cases f.bind name v <;> rfl

theorem define_of_contains (h : env.current.contains name = true) (v : Value) :
    env.define name v = .error (.duplicate name) := by
  rw [define_eq, Frame.bind_of_contains h]
  rfl

theorem exists_define_of_not_contains (h : env.current.contains name = false) (v : Value) :
    ∃ env', env.define name v = .ok env' := by
  obtain ⟨g, hg⟩ := Frame.exists_bind_of_not_contains h v
  rw [define_eq, hg]
  exact ⟨_, rfl⟩

theorem define_eq_ok (h : env.define name v = .ok env') :
    ∃ g, env.current.bind name v = .ok g ∧ env' = env.withCurrent g := by
  rw [define_eq] at h
  cases hg : env.current.bind name v with
  | error e => rw [hg] at h; cases h
  | ok g => rw [hg] at h; cases h; exact ⟨g, rfl, rfl⟩

/-- A name that is defined means the value that it was defined to be, and all others mean what they
did. -/
theorem get?_of_define (h : env.define name v = .ok env') (name' : String) :
    env'.get? name' = if name = name' then some v else env.get? name' := by
  obtain ⟨g, hg, rfl⟩ := define_eq_ok h
  rw [get?_eq_current_or, get?_eq_current_or env, current_withCurrent, frames_tail_withCurrent,
    Frame.get?_of_bind hg]
  split <;> rfl

theorem contains_current_of_define (h : env.define name v = .ok env') (name' : String) :
    env'.current.contains name' = (name == name' || env.current.contains name') := by
  obtain ⟨g, hg, rfl⟩ := define_eq_ok h
  rw [current_withCurrent, Frame.contains_of_bind_eq hg]

theorem get?_push (env : Environment) (name : String) : env.push.get? name = env.get? name := by
  rw [get?_eq, get?_eq]
  rfl

end Environment

end DynLisp
