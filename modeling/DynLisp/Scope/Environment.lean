import Std.Data.TreeMap.Basic
import DynLisp.Scope.Frame

/-!
# Environments

An `Environment` is a stack of frames: the global one at the bottom, and one for each call that is
running. A name means what the innermost frame that binds it says, whichever call made that frame.
-/

namespace DynLisp

/-- The frames that are live, those of the calls from the innermost outwards. -/
structure Environment where
  global : Frame
  locals : List Frame

namespace Environment

/-- The environment at the start of a session. -/
def initial : Environment where
  global := .builtins
  locals := []

instance : Inhabited Environment := ⟨initial⟩

/-- All frames, from the innermost outwards. -/
def frames (env : Environment) : List Frame :=
  env.locals ++ [env.global]

/-- The number of frames. -/
def depth (env : Environment) : Nat :=
  env.locals.length + 1

/-- The innermost frame. -/
def current (env : Environment) : Frame :=
  env.locals.headD env.global

/-- The innermost value of a name in the given frames. -/
def findHashed? (hash : UInt64) (name : String) : List Frame → Option Value
  | [] => none
  | f :: fs =>
    match f.getHashed? hash name with
    | some v => some v
    | none => findHashed? hash name fs

/-- The value of a name, if some frame binds it. -/
def get? (env : Environment) (name : String) : Option Value :=
  let hash := bucketHash name
  match findHashed? hash name env.locals with
  | some v => some v
  | none => env.global.getHashed? hash name

/-- The value of a name. -/
def lookup (env : Environment) (name : String) : Except EvalError Value :=
  match env.get? name with
  | some v => .ok v
  | none => .error (.unbound name)

/-- Binds a name in the innermost frame, which may hide a binding further out. -/
def define (env : Environment) (name : String) (v : Value) : Except EvalError Environment :=
  match env with
  | ⟨global, []⟩ => do return ⟨← global.bind name v, []⟩
  | ⟨global, f :: fs⟩ => do return ⟨global, (← f.bind name v) :: fs⟩

/-- Enters the frame of a call. -/
def push (env : Environment) : Environment :=
  { env with locals := .call :: env.locals }

/-- Leaves the innermost call; the global frame stays. -/
def pop (env : Environment) : Environment :=
  { env with locals := env.locals.tail }

/-- Whether a binding is one that the global frame starts with. -/
def isInitial (scope : Scope) (name : String) : Bool :=
  scope == .global && (Builtin.find? name).isSome

/-- The bindings of a frame over those found further out. -/
def shadow (visible : Std.TreeMap String Value) (f : Frame) : Std.TreeMap String Value :=
  f.toList.foldl (fun visible (name, v) =>
    if isInitial f.scope name then visible else visible.insert name v) visible

/-- The bindings that are visible, in the order of their names. Those of the builtins in the global
frame are left out. -/
def bindings (env : Environment) : List (String × Value) :=
  (env.frames.foldr (fun f visible => shadow visible f) ∅).toList

/-! ## The stack of frames -/

@[simp] theorem pop_push (env : Environment) : env.push.pop = env := rfl

@[simp] theorem depth_push (env : Environment) : env.push.depth = env.depth + 1 := rfl

theorem length_frames (env : Environment) : env.frames.length = env.depth := by
  simp [frames, depth]

theorem findHashed?_eq (name : String) (fs : List Frame) :
    findHashed? (bucketHash name) name fs = fs.findSome? (·.get? name) := by
  induction fs with
  | nil => rfl
  | cons f fs ih =>
    simp only [findHashed?, List.findSome?_cons, ih, Frame.getHashed?_bucketHash]
    cases f.get? name <;> rfl

/-- A name means what the innermost frame that binds it says. -/
theorem get?_eq (env : Environment) (name : String) :
    env.get? name = env.frames.findSome? (·.get? name) := by
  unfold get? frames
  simp only [findHashed?_eq, List.findSome?_append, Frame.getHashed?_bucketHash,
    List.findSome?_cons, List.findSome?_nil]
  cases env.locals.findSome? (·.get? name) <;> cases env.global.get? name <;> rfl

end Environment

end DynLisp
