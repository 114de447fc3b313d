import DynLisp.Proofs.Reading.Literals
import DynLisp.Value.Display

/-!
# Values that can be read

Which values have a printed form that stands for them (`Value.Readable`), and how deep they are
nested (`Value.nest`). Of their atoms the printed form is an atom of the grammar:

* `atomText_int`, `atomText_float`: of numbers;
* `atomText_symbol`: of symbols.
-/

namespace DynLisp

open Reader

namespace Number

/-- The float is finite, and an integer. -/
def IsIntegral (x : Float) : Prop :=
  ∃ negative m q, Binary64.ofFloat x = .finite negative m q ∧
    (Magnitude.ofBinary m q).isIntegral = true

/-- The number that the printed form of the float is has this float as its nearest. -/
def ReadsBack (x : Float) : Prop :=
  ∀ n, Literal n (display x).toList → n.toFloat = x

/-- The numeral that the printed form is tells whether the float reads back. -/
theorem readsBack_of_ofChars? {x : Float} {n : Numeral}
    (h : Numeral.ofChars? (display x).toList = some n) (h' : n.toFloat = x) : ReadsBack x := by
  intro n' hn
  rw [ofChars?_eq_some_iff.2 hn] at h
  cases h
  exact h'

end Number

namespace Value

open Number

/-- A name that is one atom, and no number. -/
structure ReadableName (name : String) : Prop where
  ne_nil : name.toList ≠ []
  not_delimiter : ∀ c ∈ name.toList, isDelimiter c = false
  ne_dot : name.toList ≠ ['.']
  not_numeric : looksNumeric name.toList = false

instance (name : String) : Decidable (ReadableName name) :=
  decidable_of_iff (name.toList ≠ [] ∧ (name.toList.all fun c => !isDelimiter c) = true ∧
      name.toList ≠ ['.'] ∧ looksNumeric name.toList = false) <| by
    simp only [List.all_eq_true, Bool.not_eq_true']
    exact ⟨fun ⟨h₁, h₂, h₃, h₄⟩ => ⟨h₁, h₂, h₃, h₄⟩, fun ⟨h₁, h₂, h₃, h₄⟩ => ⟨h₁, h₂, h₃, h₄⟩⟩

/-- Lists in any form of readable symbols, integers and integral floats. -/
def Readable : Value → Prop
  | nil | int _ => True
  | float x => IsIntegral x
  | symbol name => ReadableName name
  | pair head tail => head.Readable ∧ tail.Readable
  | procedure .. => False

/-- The floats in a value. -/
def floats : Value → List Float
  | float x => [x]
  | pair head tail => head.floats ++ tail.floats
  | _ => []

/-- How deep lists are nested in each other; the tail of a list is not deeper than the list. -/
def nest : Value → Nat
  | pair head tail => max (head.nest + 1) tail.nest
  | _ => 0

theorem nest_of_not_pair {v : Value} (h : ∀ head tail, v ≠ pair head tail) : v.nest = 0 := by
  cases v with
  | pair head tail => exact (h head tail rfl).elim
  | _ => rfl

/-- The depth of a list is one more than that of its deepest element or tail. -/
theorem nest_ofListTail {vs : List Value} (hne : vs ≠ []) {tail : Value}
    (h : ∀ head tail', tail ≠ pair head tail') :
    (ofListTail vs tail).nest = 1 + (vs.map nest).foldr max tail.nest := by
  have htail : tail.nest = 0 := nest_of_not_pair h
  induction vs with
  | nil => exact (hne rfl).elim
  | cons v vs ih =>
    rw [ofListTail_cons, nest, List.map_cons, List.foldr_cons]
    cases vs with
    | nil =>
      rw [ofListTail_nil, List.map_nil, List.foldr_nil, htail]
      omega
    | cons w vs =>
      rw [ih (List.cons_ne_nil w vs)]
      omega

end Value

/-! ## Printed atoms -/

namespace Reader

theorem digits_toDigits (n : Nat) : Digits (Nat.toDigits 10 n) := by
  refine digits_iff.2 fun c hc => ?_
  have h := Nat.isDigit_of_mem_toDigits (by decide) (by decide) hc
  rw [Char.isDigit, Bool.and_eq_true, decide_eq_true_eq, decide_eq_true_eq, ge_iff_le,
    UInt32.le_iff_toNat_le, UInt32.le_iff_toNat_le] at h
  exact isDigit_iff.2 h

theorem not_isDelimiter_of_isDigit {c : Char} (h : isDigit c = true) : isDelimiter c = false := by
  have hrange := isDigit_iff.1 h
  have hwhite : isWhiteSpace c = false := by
    simp only [isWhiteSpace, whiteSpaceRanges, List.any_cons, List.any_nil, Bool.or_false,
      Bool.or_eq_false_iff, Bool.and_eq_false_iff, decide_eq_false_iff_not]
    omega
  have hne : ∀ d, isDigit d = false → decide (c = d) = false := fun d hd =>
    decide_eq_false (isDigit_ne h hd)
  unfold isDelimiter
  rw [hwhite, hne '(' (by decide), hne ')' (by decide), hne '\x27' (by decide), hne ';' (by decide),
    hne '\x22' (by decide)]
  rfl

theorem Digits.not_delimiter {ds : List Char} (h : Digits ds) :
    ∀ c ∈ ds, isDelimiter c = false :=
  fun c hc => not_isDelimiter_of_isDigit (digits_iff.1 h c hc)

theorem SignText.not_delimiter {negative : Bool} {sign : List Char} (h : SignText negative sign) :
    ∀ c ∈ sign, isDelimiter c = false := by
  cases h with
  | none => exact fun _ hc => nomatch hc
  | plus => exact List.forall_mem_singleton.2 (by decide)
  | minus => exact List.forall_mem_singleton.2 (by decide)

theorem IntegerText.not_delimiter {n : Int} {text : List Char} (h : IntegerText n text) :
    ∀ c ∈ text, isDelimiter c = false := by
  obtain ⟨negative, sign, ds, hsign, hds, -, rfl, -⟩ := integerText_iff.1 h
  exact List.forall_mem_append.2 ⟨hsign.not_delimiter, hds.not_delimiter⟩

theorem ExponentText.not_delimiter {e : Int} {text : List Char} (h : ExponentText e text) :
    ∀ c ∈ text, isDelimiter c = false := by
  cases h with
  | none => exact fun _ hc => nomatch hc
  | mark hmark hinteger =>
    refine List.forall_mem_cons.2 ⟨?_, hinteger.not_delimiter⟩
    rcases hmark with rfl | rfl <;> decide

/-- No delimiter stands inside a number. -/
theorem Literal.not_delimiter {n : Numeral} {text : List Char} (h : Literal n text) :
    ∀ c ∈ text, isDelimiter c = false := by
  cases h with
  | integer hsign hds => exact List.forall_mem_append.2 ⟨hsign.not_delimiter, hds.not_delimiter⟩
  | point hsign hwhole hfraction _ he =>
    refine List.forall_mem_append.2
      ⟨List.forall_mem_append.2 ⟨hsign.not_delimiter, hwhole.not_delimiter⟩, ?_⟩
    exact List.forall_mem_cons.2
      ⟨by decide, List.forall_mem_append.2 ⟨hfraction.not_delimiter, he.not_delimiter⟩⟩
  | exponent hsign hwhole _ he =>
    exact List.forall_mem_append.2
      ⟨List.forall_mem_append.2 ⟨hsign.not_delimiter, hwhole.not_delimiter⟩, he.not_delimiter⟩

theorem Literal.ne_nil {n : Numeral} {text : List Char} (h : Literal n text) : text ≠ [] := by
  rintro rfl
  cases h.looksNumeric

/-- A printed integer is an integer of the grammar. -/
theorem literal_toString (n : Int) :
    ∃ numeral, Literal numeral (toString n).toList ∧ numeral.isInteger = true ∧
      numeral.toInt = n := by
  rw [Int.toString_eq_repr, Int.repr_eq_if]
  split
  · rename_i h
    refine ⟨⟨false, Nat.toDigits 10 n.toNat, [], 0, true⟩, ?_, rfl, ?_⟩
    · rw [Nat.toList_repr]
      exact .integer .none (digits_toDigits _) Nat.toDigits_ne_nil
    · show ((Nat.ofDigitChars 10 (Nat.toDigits 10 n.toNat) 0 : Nat) : Int) = n
      rw [Nat.ofDigitChars_ten_toDigits, Int.toNat_of_nonneg h]
  · rename_i h
    refine ⟨⟨true, Nat.toDigits 10 (-n).toNat, [], 0, true⟩, ?_, rfl, ?_⟩
    · rw [String.toList_append, Nat.toList_repr]
      exact .integer .minus (digits_toDigits _) Nat.toDigits_ne_nil
    · show -((Nat.ofDigitChars 10 (Nat.toDigits 10 (-n).toNat) 0 : Nat) : Int) = n
      rw [Nat.ofDigitChars_ten_toDigits, Int.toNat_of_nonneg (by omega), Int.neg_neg]

/-- A printed integral float is a float of the grammar. -/
theorem literal_display {x : Float} (h : Number.IsIntegral x) :
    ∃ numeral, Literal numeral (Number.display x).toList ∧ numeral.isInteger = false := by
  obtain ⟨negative, m, q, hx, hintegral⟩ := h
  let ds := Nat.toDigits 10 ((Magnitude.ofBinary m q).num / (Magnitude.ofBinary m q).den)
  have htext : (Number.displayMagnitude (Magnitude.ofBinary m q)).toList = ds ++ ['.', '0'] := by
    unfold Number.displayMagnitude
    rw [if_pos hintegral, String.toList_append, Nat.toString_eq_repr, Nat.toList_repr]
    rfl
  have hzero : Digits ['0'] := digits_iff.2 (List.forall_mem_singleton.2 (by decide))
  refine ⟨⟨negative, ds, ['0'], 0, false⟩, ?_, rfl⟩
  simp only [Number.display, hx, Number.signed]
  cases negative with
  | false =>
    show Literal _ (Number.displayMagnitude _).toList
    rw [htext]
    exact .point .none (digits_toDigits _) hzero (.inr (List.cons_ne_nil _ _)) .none
  | true =>
    show Literal _ ("-" ++ Number.displayMagnitude _).toList
    rw [String.toList_append, htext]
    exact .point .minus (digits_toDigits _) hzero (.inr (List.cons_ne_nil _ _)) .none

/-- The text is that of one atom, with this value. -/
structure AtomText (text : List Char) (v : Value) : Prop where
  ne_nil : text ≠ []
  not_delimiter : ∀ c ∈ text, isDelimiter c = false
  atom : Atom text v

theorem atomText_int (n : Int64) : AtomText (Value.int n).display.toList (.int n) := by
  obtain ⟨numeral, hliteral, hinteger, hvalue⟩ := literal_toString n.toInt
  obtain ⟨hlow, hhigh, hn⟩ := Number.int64?_eq_some_iff.1 (Number.int64?_toInt n)
  have hatom := Atom.integer (hvalue ▸ hliteral.integerText hinteger) (by omega) (by omega)
  rw [← hn] at hatom
  exact ⟨hliteral.ne_nil, hliteral.not_delimiter, hatom⟩

theorem atomText_float {x : Float} (h : Number.IsIntegral x) (h' : Number.ReadsBack x) :
    AtomText (Value.float x).display.toList (.float x) := by
  obtain ⟨numeral, hliteral, hfloat⟩ := literal_display h
  have hatom := hliteral.atom_float hfloat
  rw [h' numeral hliteral] at hatom
  exact ⟨hliteral.ne_nil, hliteral.not_delimiter, hatom⟩

theorem atomText_symbol {name : String} (h : Value.ReadableName name) :
    AtomText (Value.symbol name).display.toList (.symbol name) := by
  have hatom := Atom.symbol (looksNumeric_eq_false_iff.1 h.not_numeric) h.ne_dot
  rw [String.ofList_toList] at hatom
  exact ⟨h.ne_nil, h.not_delimiter, hatom⟩

end Reader

end DynLisp
