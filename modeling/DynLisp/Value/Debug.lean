import DynLisp.Number.Text
import DynLisp.Value.Basic

/-!
# The debug form of a value

`Value.debug` names the kind of every part of a value, so that two values of different kinds never
look alike by accident. Procedures show their formals and body.
-/

namespace DynLisp.Value

/-- The debug form of a procedure, from those of its formals and body expressions. -/
def debugProcedure (formals : String) (body : List String) : String :=
  "Procedure(formals=" ++ formals ++ ", body=[" ++ ", ".intercalate body ++ "])"

mutual

/-- The debug form of a value. -/
def debug : Value → String
  | nil => "Nil"
  | int n => "Integer(" ++ toString n.toInt ++ ")"
  | float x => "Float(" ++ Number.debug x ++ ")"
  | symbol name => "Symbol(" ++ name ++ ")"
  | pair head tail =>
    "List(" ++ ", ".intercalate (head.debug :: tail.debugItems) ++ tail.debugTail ++ ")"
  | procedure formals body => debugProcedure formals.debug body.debugItems

/-- The debug forms of the elements of a list. -/
def debugItems : Value → List String
  | pair head tail => head.debug :: tail.debugItems
  | _ => []

/-- How a list ends before its closing parenthesis: with nothing if it is proper. -/
def debugTail : Value → String
  | nil => ""
  | int n => " . Integer(" ++ toString n.toInt ++ ")"
  | float x => " . Float(" ++ Number.debug x ++ ")"
  | symbol name => " . Symbol(" ++ name ++ ")"
  | pair _ tail => tail.debugTail
  | procedure formals body => " . " ++ debugProcedure formals.debug body.debugItems

end

end DynLisp.Value
