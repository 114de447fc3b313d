/-!
# Integers of 64 bits

Exact arithmetic is done on unbounded integers; `int64?` then says whether a result fits. The main
facts are `int64?_eq_none_iff` and `int64?_eq_some_iff`, which say exactly which do not and which
do, and `toInt_of_int64?`: one that fits keeps its value.
-/

namespace DynLisp.Number

/-- The integer of 64 bits with the given value, if there is one. -/
def int64? (n : Int) : Option Int64 :=
  if h : Int64.minValue.toInt ≤ n ∧ n ≤ Int64.maxValue.toInt then some (.ofIntLE n h.1 h.2)
  else none

/-- The integers that fit are those from `-2⁶³` to `2⁶³ - 1`. -/
theorem int64?_eq_none_iff {n : Int} :
    int64? n = none ↔ n < -9223372036854775808 ∨ 9223372036854775807 < n := by
  have hmin : Int64.minValue.toInt = -9223372036854775808 := by decide
  have hmax : Int64.maxValue.toInt = 9223372036854775807 := by decide
  unfold int64?
  split
  · rename_i h
    rw [hmin, hmax] at h
    simp only [reduceCtorEq, false_iff]
    omega
  · rename_i h
    rw [hmin, hmax] at h
    simp only [true_iff]
    omega

theorem int64?_eq_some_iff {n : Int} {m : Int64} :
    int64? n = some m ↔
      -9223372036854775808 ≤ n ∧ n ≤ 9223372036854775807 ∧ m = .ofInt n := by
  have hmin : Int64.minValue.toInt = -9223372036854775808 := by decide
  have hmax : Int64.maxValue.toInt = 9223372036854775807 := by decide
  unfold int64?
  split
  · rename_i h
    rw [Int64.ofIntLE_eq_ofInt, Option.some_inj]
    rw [hmin, hmax] at h
    constructor
    · rintro rfl
      exact ⟨h.1, h.2, rfl⟩
    · rintro ⟨-, -, rfl⟩
      rfl
  · rename_i h
    rw [hmin, hmax] at h
    simp only [reduceCtorEq, false_iff]
    rintro ⟨hlow, hhigh, -⟩
    exact h ⟨hlow, hhigh⟩

/-- An integer that fits keeps its value. -/
theorem toInt_of_int64? {n : Int} {m : Int64} (h : int64? n = some m) : m.toInt = n := by
  unfold int64? at h
  split at h
  · cases h
    exact Int64.toInt_ofIntLE
  · cases h

/-- Every integer of 64 bits is the one with its own value. -/
theorem int64?_toInt (m : Int64) : int64? m.toInt = some m := by
  unfold int64?
  rw [dif_pos ⟨m.minValue_le_toInt, m.toInt_le⟩, Int64.ofIntLE_toInt]

end DynLisp.Number
