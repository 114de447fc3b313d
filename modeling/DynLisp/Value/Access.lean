import DynLisp.Error

/-!
# Checked access to values

Taking a value apart fails with a `TypeMismatch` if it is of the wrong kind. The elements of a
list (`toList`) are only given for a proper list.
-/

namespace DynLisp.Value

/-- The first element of a pair. -/
def car : Value → Except EvalError Value
  | pair head _ => .ok head
  | v => .error (.typeMismatch (.notPair "car" v))

/-- The second element of a pair. -/
def cdr : Value → Except EvalError Value
  | pair _ tail => .ok tail
  | v => .error (.typeMismatch (.notPair "cdr" v))

/-- The elements of a proper list. -/
def toList (v : Value) : Except EvalError (List Value) :=
  if !v.isList then .error (.typeMismatch (.notList v))
  else if v.isProperList then .ok v.items
  else .error (.typeMismatch (.notProperList v))

/-- The number of elements of a proper list. -/
def length (v : Value) : Except EvalError Nat :=
  return (← v.toList).length

/-- A number as a float; an integer is rounded to the nearest one. -/
def toFloat? : Value → Option Float
  | int n => some (Float.ofInt n.toInt)
  | float x => some x
  | _ => none

/-- A number as a float, or the complaint that it is none. -/
def asFloat (v : Value) : Except EvalError Float :=
  match v.toFloat? with
  | some x => .ok x
  | none => .error (.typeMismatch (.notNumber v))

/-- The first `n` elements along a spine, and what follows them. -/
def splitItems : Nat → Value → List Value × Value
  | n + 1, pair head tail =>
    let (taken, left) := splitItems n tail
    (head :: taken, left)
  | _, v => ([], v)

/-! ## Proper lists -/

theorem isList_ofList (vs : List Value) : (ofList vs).isList = true := by
  cases vs <;> rfl

theorem isProperList_ofList (vs : List Value) : (ofList vs).isProperList = true := by
  rw [isProperList, rest_ofList]; rfl

theorem toList_ofList (vs : List Value) : (ofList vs).toList = .ok vs := by
  simp [toList, isList_ofList, isProperList_ofList]

/-- The elements are given exactly for the list of them. -/
theorem toList_eq_ok_iff {v : Value} {vs : List Value} : v.toList = .ok vs ↔ v = ofList vs := by
  constructor
  · intro h
    unfold toList at h
    split at h
    · cases h
    · split at h
      · rename_i hp
        cases h
        refine (ofList_items ?_).symm
        revert hp
        unfold isProperList
        cases v.rest <;> simp [isNil]
      · cases h
  · rintro rfl
    exact toList_ofList vs

/-- Taking elements loses none: what was taken and what is left make up the list. -/
theorem ofListTail_splitItems (n : Nat) (v : Value) :
    ofListTail (v.splitItems n).1 (v.splitItems n).2 = v := by
  induction n generalizing v with
  | zero => cases v <;> rfl
  | succ n ih => cases v <;> simp [splitItems, ih]

end DynLisp.Value
