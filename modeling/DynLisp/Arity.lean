/-!
# Operand counts

An operation states which operand counts it takes as an `Arity`.
-/

namespace DynLisp

/-- The operand counts that an operation takes. -/
inductive Arity where
  | exactly (n : Nat)
  | atLeast (n : Nat)
  | between (min max : Nat)
  | any
deriving DecidableEq

namespace Arity

/-- Whether a count is one of those taken; both ends of a range are. -/
def accepts : Arity → Nat → Bool
  | exactly n, count => count == n
  | atLeast n, count => n ≤ count
  | between min max, count => min ≤ count && count ≤ max
  | any, _ => true

/-- How the expected count is told in a message. -/
def text : Arity → String
  | exactly n => toString n
  | atLeast n => "at least " ++ toString n
  | between min max => toString min ++ " to " ++ toString max
  | any => "any number of"

/-- The debug form. -/
def debug : Arity → String
  | exactly n => "Exact(" ++ toString n ++ ")"
  | atLeast n => "AtLeast(" ++ toString n ++ ")"
  | between min max => "Range(" ++ toString min ++ ", " ++ toString max ++ ")"
  | any => "Any"

end Arity

end DynLisp
