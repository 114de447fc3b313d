import Mathlib.Tactic.SplitIfs

/-!
# The order of texts by their bytes

Texts are ordered by the code points of their characters. UTF-8 keeps that order: a text that comes
before another one does so by its bytes as well (`utf8_lt_of_lt`). Of two characters, the encoding of
the smaller one has the smaller byte where both differ first, whatever follows
(`utf8EncodeChar_lt_of_lt`).
-/

namespace DynLisp.ByteOrder

/-- The bytes of a text. -/
def utf8 (s : String) : List UInt8 :=
  s.toUTF8.data.toList

theorem utf8_eq (s : String) : utf8 s = s.toList.flatMap String.utf8EncodeChar := by
  unfold utf8 String.toUTF8
  rw [← String.utf8Encode_toList]
  exact List.toList_data_toByteArray

section Bytes

variable {m n : Nat} {bs bs' : List UInt8}

theorem byte_lt (hn : n < 256) (h : m < n) : UInt8.ofNat m :: bs < UInt8.ofNat n :: bs' :=
  .rel ((UInt8.ofNat_lt_iff_lt (Nat.lt_trans h hn) hn).2 h)

/-- A byte decides unless it is the same on both sides. -/
theorem byte_le (hn : n < 256) (hle : m ≤ n) (h : m = n → bs < bs') :
    UInt8.ofNat m :: bs < UInt8.ofNat n :: bs' := by
  rcases Nat.lt_or_eq_of_le hle with hlt | rfl
  · exact byte_lt hn hlt
  · exact .cons (h rfl)

end Bytes

theorem utf8EncodeChar_lt_of_lt {c d : Char} (h : c < d) (bs bs' : List UInt8) :
    String.utf8EncodeChar c ++ bs < String.utf8EncodeChar d ++ bs' := by
  have hlt : c.val.toNat < d.val.toNat := h
  have hd : d.val.toNat < 0x110000 := by
    have hvalid : d.val.toNat.isValidChar := d.valid
    unfold Nat.isValidChar at hvalid
    omega
  unfold String.utf8EncodeChar
  generalize c.val.toNat = m at hlt ⊢
  generalize d.val.toNat = n at hlt hd ⊢
  dsimp only
  -- One case for each number of bytes on the left and on the right. There are not more on the left.
  split_ifs
  all_goals try omega
  · exact byte_lt (by omega) (by omega)
  · exact byte_lt (by omega) (by omega)
  · exact byte_lt (by omega) (by omega)
  · exact byte_lt (by omega) (by omega)
  · exact byte_le (by omega) (by omega) fun h₁ => byte_lt (by omega) (by omega)
  · exact byte_lt (by omega) (by omega)
  · exact byte_lt (by omega) (by omega)
  · exact byte_le (by omega) (by omega) fun h₁ => byte_le (by omega) (by omega) fun h₂ =>
      byte_lt (by omega) (by omega)
  · exact byte_lt (by omega) (by omega)
  · exact byte_le (by omega) (by omega) fun h₁ => byte_le (by omega) (by omega) fun h₂ =>
      byte_le (by omega) (by omega) fun h₃ => byte_lt (by omega) (by omega)

/-- A text that comes before another does so by its bytes. -/
theorem utf8_lt_of_lt {s t : String} (h : s < t) : utf8 s < utf8 t := by
  rw [utf8_eq, utf8_eq]
  have hlist : s.toList < t.toList := h
  generalize s.toList = cs at hlist ⊢
  generalize t.toList = ds at hlist ⊢
  induction hlist with
  | @nil d ds =>
    rw [List.flatMap_nil, List.flatMap_cons]
    cases hd : String.utf8EncodeChar d with
    | nil => exact (String.utf8EncodeChar_ne_nil hd).elim
    | cons b bs => exact .nil
  | rel hcd =>
    rw [List.flatMap_cons, List.flatMap_cons]
    exact utf8EncodeChar_lt_of_lt hcd _ _
  | cons _ ih =>
    rw [List.flatMap_cons, List.flatMap_cons]
    exact List.append_left_lt ih

end DynLisp.ByteOrder
