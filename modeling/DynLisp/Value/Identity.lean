import DynLisp.Value.Access

/-!
# Values that know their cells

Two lists with the same elements may share cells or not. A `Tracked` value carries the number of
the cell of each of its pairs and procedures, so that sharing can be seen; `Cells` hands out cells
not used before. Forgetting the cells gives a plain value (`erase`). Equality of tracked values
(`same`) looks at cells where it can and at the contents where it must.
-/

namespace DynLisp

/-- A value with the cells its pairs and procedures live in. -/
inductive Tracked where
  | nil
  | int (n : Int64)
  | float (x : Float)
  | symbol (name : String)
  | pair (cell : Nat) (head tail : Tracked)
  | procedure (cell : Nat) (formals body : Value)
deriving DecidableEq, Inhabited

/-- The cells from `next` on are unused. -/
structure Cells where
  next : Nat := 0

namespace Tracked

/-- The value without its cells. -/
def erase : Tracked → Value
  | nil => .nil
  | int n => .int n
  | float x => .float x
  | symbol name => .symbol name
  | pair _ head tail => .pair head.erase tail.erase
  | procedure _ formals body => .procedure formals body

/-- The first element of a pair, cells included. -/
def car : Tracked → Except EvalError Tracked
  | pair _ head _ => .ok head
  | v => .error (.typeMismatch (.notPair "car" v.erase))

/-- The second element of a pair, cells included. -/
def cdr : Tracked → Except EvalError Tracked
  | pair _ _ tail => .ok tail
  | v => .error (.typeMismatch (.notPair "cdr" v.erase))

/-- Equality of values that are not both pairs. Floats are compared as numbers, so that NaN differs
from itself; procedures are equal only if they are the same one. -/
def sameLeaf : Tracked → Tracked → Bool
  | nil, nil => true
  | int n, int m => n == m
  | float x, float y => x == y
  | symbol s, symbol t => s == t
  | procedure c _ _, procedure d _ _ => c == d
  | _, _ => false

mutual

/-- Equality of values. A pair is equal to itself whatever it holds; other pairs are compared along
their spines, element by element. -/
def same : Tracked → Tracked → Bool
  | pair c head tail, pair d head' tail' => c == d || (same head head' && sameSpine tail tail')
  | v, w => sameLeaf v w

/-- Equality of the rest of two spines; that they may be one spine is not looked at. -/
def sameSpine : Tracked → Tracked → Bool
  | pair _ head tail, pair _ head' tail' => same head head' && sameSpine tail tail'
  | v, w => sameLeaf v w

end

end Tracked

namespace Cells

/-- A pair in a cell of its own. -/
def cons (cells : Cells) (head tail : Tracked) : Tracked × Cells :=
  (.pair cells.next head tail, ⟨cells.next + 1⟩)

/-- A list in cells of its own, ending in `tail`. -/
def list (cells : Cells) (elements : List Tracked) (tail : Tracked) : Tracked × Cells :=
  elements.foldr (fun v (rest, cells) => cells.cons v rest) (tail, cells)

/-- A value with a cell of its own for each of its pairs and procedures. -/
def place (cells : Cells) : Value → Tracked × Cells
  | .nil => (.nil, cells)
  | .int n => (.int n, cells)
  | .float x => (.float x, cells)
  | .symbol name => (.symbol name, cells)
  | .pair head tail =>
    let (head, cells) := cells.place head
    let (tail, cells) := cells.place tail
    cells.cons head tail
  | .procedure formals body => (.procedure cells.next formals body, ⟨cells.next + 1⟩)

/-- Placing a value in cells does not change it. -/
theorem erase_place (cells : Cells) (v : Value) : (cells.place v).1.erase = v := by
  induction v generalizing cells with
  | pair head tail ih₁ ih₂ => simp [place, cons, Tracked.erase, ih₁, ih₂]
  | _ => simp [place, Tracked.erase]

end Cells

namespace Tracked

/-- Looking at a pair is the same with cells and without. -/
theorem erase_car (v : Tracked) : v.car.map erase = v.erase.car := by
  cases v <;> rfl

theorem erase_cdr (v : Tracked) : v.cdr.map erase = v.erase.cdr := by
  cases v <;> rfl

end Tracked

end DynLisp
