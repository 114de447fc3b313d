/-!
# Values

Every datum of the language, whether program text or a result, is a `Value`. A list is a chain of
pairs; `items` and `rest` are its two views, and `ofListTail` builds a chain from them:

* `items_ofListTail`, `rest_ofListTail`: both views of a chain that was built;
* `ofListTail_items_rest`: every value is the chain of its items and its rest.
-/

namespace DynLisp

/-- A datum: the empty list, an exact integer, an inexact number, a symbol, a pair, or a
procedure with its formals and the list of its body expressions. -/
inductive Value where
  | nil
  | int (n : Int64)
  | float (x : Float)
  | symbol (name : String)
  | pair (head tail : Value)
  | procedure (formals body : Value)
deriving DecidableEq, Inhabited

namespace Value

/-- The elements along the spine of a list, as far as pairs go. -/
def items : Value → List Value
  | pair head tail => head :: tail.items
  | _ => []

/-- What the spine of a list ends in: `()` for a proper list. -/
def rest : Value → Value
  | pair _ tail => tail.rest
  | v => v

/-- The list of the given elements that ends in `tail` instead of `()`. -/
def ofListTail (elements : List Value) (tail : Value) : Value :=
  elements.foldr pair tail

/-- The proper list of the given elements. -/
def ofList (elements : List Value) : Value :=
  ofListTail elements nil

/-- Truth values are the integers 1 and 0. -/
def ofBool (b : Bool) : Value :=
  int (if b then 1 else 0)

def isNil : Value → Bool
  | nil => true
  | _ => false

def isPair : Value → Bool
  | pair .. => true
  | _ => false

def isSymbol : Value → Bool
  | symbol _ => true
  | _ => false

def isProcedure : Value → Bool
  | procedure .. => true
  | _ => false

def isInt : Value → Bool
  | int _ => true
  | _ => false

def isFloat : Value → Bool
  | float _ => true
  | _ => false

def isNumber (v : Value) : Bool :=
  v.isInt || v.isFloat

/-- A list is `()` or a pair; whether the spine ends in `()` is not looked at. -/
def isList (v : Value) : Bool :=
  v.isNil || v.isPair

/-- A list whose spine ends in `()`. -/
def isProperList (v : Value) : Bool :=
  v.rest.isNil

/-- The name of a symbol. -/
def symbolName? : Value → Option String
  | symbol name => some name
  | _ => none

/-! ## The two views of a list -/

@[simp] theorem ofListTail_nil (tail : Value) : ofListTail [] tail = tail := rfl

@[simp] theorem ofListTail_cons (v : Value) (vs : List Value) (tail : Value) :
    ofListTail (v :: vs) tail = pair v (ofListTail vs tail) := rfl

theorem items_ofListTail (vs : List Value) (tail : Value) :
    (ofListTail vs tail).items = vs ++ tail.items := by
  induction vs with
  | nil => rfl
  | cons v vs ih => simp [items, ih]

theorem rest_ofListTail (vs : List Value) (tail : Value) :
    (ofListTail vs tail).rest = tail.rest := by
  induction vs with
  | nil => rfl
  | cons v vs ih => simpa [rest] using ih

theorem ofListTail_items_rest (v : Value) : ofListTail v.items v.rest = v := by
  induction v with
  | pair head tail _ ih => simp [items, rest, ih]
  | _ => rfl

@[simp] theorem items_ofList (vs : List Value) : (ofList vs).items = vs := by
  simp [ofList, items_ofListTail, items]

@[simp] theorem rest_ofList (vs : List Value) : (ofList vs).rest = nil := by
  simp [ofList, rest_ofListTail, rest]

theorem rest_ne_pair (v head tail : Value) : v.rest ≠ pair head tail := by
  induction v with
  | pair _ _ _ ih => simpa [rest] using ih
  | _ => simp [rest]

/-- A proper list is the list of its items. -/
theorem ofList_items {v : Value} (h : v.rest = nil) : ofList v.items = v := by
  rw [ofList, ← h, ofListTail_items_rest]

end Value

end DynLisp
