import DynLisp.Number.Text
import DynLisp.Value.Basic

/-!
# The printed form of a value

`Value.display` is the text that `print` writes: symbols by their names, lists in parentheses with
one blank between the elements and ` . ` before a tail that is not `()`. `Value.pieces` are the pieces
in which it is written. The main fact is `join_pieces`: together they are that text.
-/

namespace DynLisp.Value

/-- Every procedure is shown by the same text. -/
def procedureMark : String := "#<function>"

mutual

/-- The printed form of a value. -/
def display : Value → String
  | nil => "()"
  | int n => toString n.toInt
  | float x => Number.display x
  | symbol name => name
  | pair head tail =>
    "(" ++ " ".intercalate (head.display :: tail.displayItems) ++ tail.displayTail ++ ")"
  | procedure _ _ => procedureMark

/-- The printed forms of the elements of a list. -/
def displayItems : Value → List String
  | pair head tail => head.display :: tail.displayItems
  | _ => []

/-- How a list ends before its closing parenthesis: with nothing if it is proper. -/
def displayTail : Value → String
  | nil => ""
  | int n => " . " ++ toString n.toInt
  | float x => " . " ++ Number.display x
  | symbol name => " . " ++ name
  | pair _ tail => tail.displayTail
  | procedure _ _ => " . " ++ procedureMark

end

mutual

/-- The pieces in which the printed form of a value is written, one after the other. -/
def pieces : Value → List String
  | pair head tail => "(" :: (head.pieces ++ tail.tailPieces)
  | v => [v.display]

/-- The pieces that follow an element of a list, to its closing parenthesis. -/
def tailPieces : Value → List String
  | nil => [")"]
  | pair head tail => " " :: (head.pieces ++ tail.tailPieces)
  | v => [" . ", v.display, ")"]

end

instance : ToString Value := ⟨display⟩

/-! ## The parts of a printed list -/

theorem displayItems_eq_map (v : Value) : v.displayItems = v.items.map display := by
  induction v with
  | pair head tail _ ih => simp [displayItems, items, ih]
  | _ => simp [displayItems, items]

theorem displayTail_eq (v : Value) :
    v.displayTail = if v.rest.isNil then "" else " . " ++ v.rest.display := by
  induction v with
  | pair head tail _ ih => rw [displayTail, rest]; exact ih
  | _ => simp [displayTail, rest, display, isNil]

/-! ## The pieces of a printed value -/

/-- Both kinds of pieces at once: those of a value make up its printed form, and those that follow an
element `first` make up the other elements, the end of the list and the parenthesis. -/
theorem join_pieces_and_tailPieces (v : Value) :
    String.join v.pieces = v.display ∧ ∀ first, first ++ String.join v.tailPieces =
      " ".intercalate (first :: v.displayItems) ++ v.displayTail ++ ")" := by
  induction v with
  | pair head tail ihHead ihTail =>
    have hpieces : String.join (head.pieces ++ tail.tailPieces) =
        " ".intercalate (head.display :: tail.displayItems) ++ tail.displayTail ++ ")" := by
      rw [String.join_append, ihHead.1, ihTail.2]
    constructor
    · simp only [pieces, display, String.join_cons, hpieces, String.append_assoc]
    · intro first
      simp only [tailPieces, displayItems, displayTail, String.join_cons, hpieces,
        String.intercalate_cons_cons, String.append_assoc]
  | _ =>
    simp [pieces, tailPieces, display, displayItems, displayTail, String.join_cons,
      String.append_assoc]

/-- The pieces in which a value is written make up its printed form. -/
theorem join_pieces (v : Value) : String.join v.pieces = v.display :=
  (join_pieces_and_tailPieces v).1

end DynLisp.Value
