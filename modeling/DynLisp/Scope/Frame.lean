import DynLisp.Builtin.Basic
import DynLisp.ChainMap.Basic
import DynLisp.Error

/-!
# Scope frames

A `Frame` binds names to values. A name that a frame binds keeps its value as long as the frame
lives: `bind` refuses to bind it again.
-/

namespace DynLisp

/-- What a frame is for: the one global frame, or one call. -/
inductive Scope where
  | global
  | local
deriving DecidableEq

/-- The word for a scope in the description of a frame. -/
def Scope.text : Scope → String
  | .global => "Global"
  | .local => "Local"

/-- The bindings made in one scope. -/
structure Frame where
  scope : Scope
  entries : ChainMap String Value

namespace Frame

/-- The bucket counts decide in which order a frame lists its bindings. -/
def globalBuckets : Nat := ChainMap.defaultBuckets

def localBuckets : Nat := 61

/-- The frame of a call, empty at first. -/
def call : Frame where
  scope := .local
  entries := .withBuckets localBuckets

/-- The value of a name whose hash is known. -/
def getHashed? (f : Frame) (hash : UInt64) (name : String) : Option Value :=
  f.entries.getHashed? hash name

/-- The value of a name in this frame. -/
def get? (f : Frame) (name : String) : Option Value :=
  f.entries.get? name

theorem getHashed?_bucketHash (f : Frame) (name : String) :
    f.getHashed? (bucketHash name) name = f.get? name := rfl

def contains (f : Frame) (name : String) : Bool :=
  f.entries.contains name

/-- The frame with one more binding. A name is bound at most once. -/
def bind (f : Frame) (name : String) (v : Value) : Except EvalError Frame :=
  match f.entries.insertNew? name v with
  | some entries => .ok { f with entries }
  | none => .error (.duplicate name)

/-- The global frame binds each builtin to the symbol of its name. -/
def builtins : Frame where
  scope := .global
  entries := Builtin.all.foldl
    (fun m b => (m.insertNew? b.name (.symbol b.name)).getD m) (.withBuckets globalBuckets)

/-- The frame without its bindings. -/
def clear (f : Frame) : Frame :=
  { f with entries := f.entries.clear }

/-- The number of bindings. -/
def size (f : Frame) : Nat :=
  f.entries.size

def isEmpty (f : Frame) : Bool :=
  f.entries.isEmpty

/-- The bindings in the order of the frame. -/
def toList (f : Frame) : List (String × Value) :=
  f.entries.toList

/-- The names in the order of the frame. -/
def names (f : Frame) : List String :=
  f.toList.map Prod.fst

/-- A line for each binding. -/
def dump (f : Frame) : String :=
  String.join (f.toList.map fun (name, v) => name ++ ": " ++ v.display ++ "\n")

end Frame

end DynLisp
