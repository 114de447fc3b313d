import DynLisp.Value.Basic

/-!
# Data as values

`ToValue` turns data of other types into values: the fixed-width integers that fit in an `Int64`,
floats of both widths, and sequences, which become proper lists.
-/

namespace DynLisp

/-- Types whose data are values in disguise. -/
class ToValue (α : Type) where
  toValue : α → Value

export ToValue (toValue)

instance : ToValue Value := ⟨id⟩
instance : ToValue Int64 := ⟨.int⟩
instance : ToValue Int32 := ⟨fun n => .int n.toInt64⟩
instance : ToValue Int16 := ⟨fun n => .int n.toInt64⟩
instance : ToValue Int8 := ⟨fun n => .int n.toInt64⟩
instance : ToValue UInt32 := ⟨fun n => .int (Int64.ofNat n.toNat)⟩
instance : ToValue UInt16 := ⟨fun n => .int (Int64.ofNat n.toNat)⟩
instance : ToValue UInt8 := ⟨fun n => .int (Int64.ofNat n.toNat)⟩
instance : ToValue Float := ⟨.float⟩

/-- Every narrow float is a wide one. -/
instance : ToValue Float32 := ⟨fun x => .float x.toFloat⟩

variable {α : Type} [ToValue α]

instance : ToValue (List α) := ⟨fun xs => .ofList (xs.map toValue)⟩
instance : ToValue (Array α) := ⟨fun xs => .ofList (xs.toList.map toValue)⟩

end DynLisp
