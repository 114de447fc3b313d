import DynLisp.Proofs.Evaluation.OperandCounts
import Mathlib.Algebra.Order.Ring.Int

/-!
# Sums, differences and products

`+`, `-` and `*` compute on exact integers as long as all operands are integers
(`sums_and_products_are_exact`): the result is that over the unbounded integers, and there is one
exactly if the result on the operands so far fits after every operand. A float among the operands
makes the result a float, and anything that is no number is refused.

The three operations differ only in what they combine from the left, and from where they start; what
they have in common is `IsExact`, of one result (`isExact_checked`) and of a fold
(`isExact_foldChecked`).
-/

namespace DynLisp

namespace Number

/-- The integers of 64 bits. -/
def Fits (n : Int) : Prop :=
  -2 ^ 63 ≤ n ∧ n < 2 ^ 63

instance (n : Int) : Decidable (Fits n) :=
  inferInstanceAs (Decidable (_ ∧ _))

theorem fits_toInt (m : Int64) : Fits m.toInt :=
  ⟨m.minValue_le_toInt, Int.lt_of_le_of_lt m.toInt_le (by decide)⟩

theorem int64?_eq_none_iff_not_fits {n : Int} : int64? n = none ↔ ¬ Fits n := by
  rw [int64?_eq_none_iff, Fits]
  omega

end Number

namespace Arithmetic

open Number

variable {op : Primitive} {args : List Value}

/-! ## Kinds of operands -/

theorem exists_integers (h : ∀ v ∈ args, v.isNumber = true ∧ v.isFloat = false) :
    ∃ ns : List Int64, args = ns.map .int := by
  induction args with
  | nil => exact ⟨[], rfl⟩
  | cons v vs ih =>
    obtain ⟨⟨hnumber, hexact⟩, hvs⟩ := List.forall_mem_cons.1 h
    obtain ⟨ns, rfl⟩ := ih hvs
    obtain ⟨n, rfl⟩ : ∃ n, v = .int n := by
      cases v <;> simp_all [Value.isNumber, Value.isInt, Value.isFloat]
    exact ⟨n :: ns, rfl⟩

theorem kind_of_mem_integers {ns : List Int64} {v : Value} (hv : v ∈ ns.map Value.int) :
    v.isNumber = true ∧ v.isFloat = false := by
  obtain ⟨n, -, rfl⟩ := List.mem_map.1 hv
  exact ⟨rfl, rfl⟩

theorem operands_integers (op : Primitive) (ns : List Int64) :
    operands op (ns.map .int) = .ok (.integers ns) := by
  have hnumber : (ns.map Value.int).find? (fun v => !v.isNumber) = none :=
    List.find?_eq_none.2 fun v hv => by simp [kind_of_mem_integers hv]
  have hexact : (ns.map Value.int).any Value.isFloat = false :=
    List.any_eq_false.2 fun v hv => by simp [kind_of_mem_integers hv]
  have hints : (ns.map Value.int).filterMap int? = ns := by
    rw [List.filterMap_map]
    exact List.filterMap_some
  simp only [operands, hnumber, hexact, hints, Bool.false_eq_true, if_false]

/-- Operands are refused if one is no number, made floats if one is a float, and otherwise they are
integers. -/
theorem operands_cases (op : Primitive) (args : List Value) :
    (∃ v ∈ args, ¬ v.isNumber = true ∧
      operands op args = .error (.typeMismatch (.notNumericOperand op.name v))) ∨
    ((∀ v ∈ args, v.isNumber = true) ∧ (∃ v ∈ args, v.isFloat = true) ∧
      ∃ xs, xs.length = args.length ∧ operands op args = .ok (.floats xs)) ∨
    ∃ ns : List Int64, args = ns.map .int := by
  rcases hfind : args.find? fun v => !v.isNumber with _ | v
  · have hnumber : ∀ v ∈ args, v.isNumber = true := fun v hv => by
      simpa using List.find?_eq_none.1 hfind v hv
    by_cases hfloat : args.any Value.isFloat = true
    · refine .inr (.inl ⟨hnumber, List.any_eq_true.1 hfloat, _,
        length_filterMap_toFloat? hnumber, ?_⟩)
      simp only [operands, hfind, hfloat, if_true]
    · refine .inr (.inr (exists_integers fun v hv => ⟨hnumber v hv, ?_⟩))
      exact Bool.eq_false_iff.2 fun h => hfloat (List.any_eq_true.2 ⟨v, hv, h⟩)
  · have hv : ¬ v.isNumber = true := by simpa using List.find?_some hfind
    refine .inl ⟨v, List.mem_of_find?_eq_some hfind, hv, ?_⟩
    simp only [operands, hfind]

/-! ## Checked results -/

/-- A computation on integers with these intermediate results gives the exact result if all of them
fit, and an overflow error if one does not. -/
structure IsExact (op : Primitive) (r : Except EvalError Int64) (partials : List Int)
    (value : Int) : Prop where
  of_fits : (∀ p ∈ partials, Fits p) → ∃ m, r = .ok m ∧ m.toInt = value
  of_not_fits : (∃ p ∈ partials, ¬ Fits p) → r = .error (.overflow (.integer op.name))

section IsExact

variable {r : Except EvalError Int64} {partials : List Int} {value : Int}

theorem IsExact.fits_or_overflow (h : IsExact op r partials value) :
    ((∀ p ∈ partials, Fits p) ∧ ∃ m, Value.int <$> r = .ok (.int m) ∧ m.toInt = value) ∨
    ((∃ p ∈ partials, ¬ Fits p) ∧ Value.int <$> r = .error (.overflow (.integer op.name))) := by
  by_cases hfits : ∀ p ∈ partials, Fits p
  · obtain ⟨m, rfl, hvalue⟩ := h.of_fits hfits
    exact .inl ⟨hfits, m, rfl, hvalue⟩
  · have hnot : ∃ p ∈ partials, ¬ Fits p := by simpa using hfits
    rw [h.of_not_fits hnot]
    exact .inr ⟨hnot, rfl⟩

theorem IsExact.overflow_iff (h : IsExact op r partials value) :
    (∃ cause, Value.int <$> r = .error (.overflow cause)) ↔ ∃ p ∈ partials, ¬ Fits p := by
  rcases h.fits_or_overflow with ⟨hfits, m, hm, -⟩ | ⟨hnot, hr⟩
  · simp only [hm, reduceCtorEq, exists_false, false_iff, not_exists, not_and, not_not]
    exact hfits
  · exact ⟨fun _ => hnot, fun _ => ⟨_, hr⟩⟩

theorem IsExact.not_typeMismatch (h : IsExact op r partials value) {cause : TypeMismatch} :
    Value.int <$> r ≠ .error (.typeMismatch cause) := by
  rcases h.fits_or_overflow with ⟨-, m, hm, -⟩ | ⟨-, hr⟩
  · simp only [hm, ne_eq, reduceCtorEq, not_false_eq_true]
  · simp only [hr, ne_eq, Except.error.injEq, reduceCtorEq, not_false_eq_true]

end IsExact

theorem isExact_checked (op : Primitive) (n : Int) : IsExact op (checked op n) [n] n := by
  unfold checked
  rcases hn : int64? n with _ | m
  · have hnot := int64?_eq_none_iff_not_fits.1 hn
    exact ⟨fun h => absurd (h n List.mem_cons_self) hnot, fun _ => rfl⟩
  · have hfits : Fits n := toInt_of_int64? hn ▸ fits_toInt m
    refine ⟨fun _ => ⟨m, rfl, toInt_of_int64? hn⟩, ?_⟩
    rintro ⟨p, hp, hnot⟩
    rw [List.mem_singleton.1 hp] at hnot
    exact absurd hfits hnot

theorem isExact_foldChecked (op : Primitive) (f : Int → Int → Int) (start : Int64)
    (ns : List Int64) :
    IsExact op (foldChecked op f start ns) ((ns.map Int64.toInt).scanl f start.toInt)
      ((ns.map Int64.toInt).foldl f start.toInt) := by
  induction ns generalizing start with
  | nil =>
    refine ⟨fun _ => ⟨start, rfl, rfl⟩, ?_⟩
    rintro ⟨p, hp, hnot⟩
    rw [List.mem_singleton.1 hp] at hnot
    exact absurd (fits_toInt start) hnot
  | cons n ns ih =>
    have hstep : foldChecked op f start (n :: ns) =
        checked op (f start.toInt n.toInt) >>= fun acc => foldChecked op f acc ns :=
      List.foldlM_cons
    have hnext := isExact_checked op (f start.toInt n.toInt)
    rw [hstep, List.map_cons, List.scanl_cons, List.foldl_cons]
    by_cases hfits : Fits (f start.toInt n.toInt)
    · obtain ⟨m, hm, hvalue⟩ := hnext.of_fits (by simpa using hfits)
      rw [hm, ← hvalue]
      refine ⟨fun h => (ih m).of_fits (List.forall_mem_cons.1 h).2, ?_⟩
      rintro ⟨p, hp, hnot⟩
      rcases List.mem_cons.1 hp with rfl | hp
      · exact absurd (fits_toInt start) hnot
      · exact (ih m).of_not_fits ⟨p, hp, hnot⟩
    · rw [hnext.of_not_fits (by simpa using hfits)]
      refine ⟨fun h => absurd (h _ ?_) hfits, fun _ => rfl⟩
      exact List.mem_cons_of_mem _ (by cases ns <;> simp [List.scanl_cons])

/-! ## The three operations -/

/-- What the operations give on the operands so far, after each of them, over the unbounded
integers. Only subtraction starts with its first operand, and a lone one is negated at once. -/
def partialResults : Primitive → List Int → List Int
  | .add, ns => ns.scanl (· + ·) 0
  | .mul, ns => ns.scanl (· * ·) 1
  | .sub, [n] => [-n]
  | .sub, n :: ns => ns.scanl (· - ·) n
  | _, _ => []

/-- What the operations give over the unbounded integers. -/
def exactResult : Primitive → List Int → Int
  | .add, ns => ns.sum
  | .mul, ns => ns.prod
  | .sub, [n] => -n
  | .sub, n :: ns => n - ns.sum
  | _, _ => 0

theorem foldl_sub (n : Int) (ns : List Int) : ns.foldl (· - ·) n = n - ns.sum := by
  induction ns generalizing n with
  | nil => simp
  | cons m ns ih => rw [List.foldl_cons, ih, List.sum_cons, Int.sub_sub]

variable (hop : op ∈ [Primitive.add, .sub, .mul])

include hop

theorem run_refused {e : EvalError} (h : operands op args = .error e) : op.run args = .error e := by
  simp only [List.mem_cons, List.not_mem_nil, or_false] at hop
  rcases hop with rfl | rfl | rfl
  · simp only [Primitive.run, add, h]
    rfl
  · simp only [Primitive.run, sub, h]
    rfl
  · simp only [Primitive.run, mul, h]
    rfl

theorem run_floats {xs : List Float} (hcount : op.arity.accepts xs.length = true)
    (h : operands op args = .ok (.floats xs)) : ∃ x, op.run args = .ok (.float x) := by
  simp only [List.mem_cons, List.not_mem_nil, or_false] at hop
  rcases hop with rfl | rfl | rfl
  · simp only [Primitive.run, add, h]
    exact ⟨_, rfl⟩
  · simp only [Primitive.run, sub, h]
    rcases xs with _ | ⟨x, _ | ⟨y, xs⟩⟩
    · cases hcount
    · exact ⟨_, rfl⟩
    · exact ⟨_, rfl⟩
  · simp only [Primitive.run, mul, h]
    exact ⟨_, rfl⟩

theorem run_integers {ns : List Int64} (hcount : op.arity.accepts ns.length = true) :
    ∃ r, op.run (ns.map .int) = Value.int <$> r ∧
      IsExact op r (partialResults op (ns.map Int64.toInt))
        (exactResult op (ns.map Int64.toInt)) := by
  simp only [List.mem_cons, List.not_mem_nil, or_false] at hop
  rcases hop with rfl | rfl | rfl
  · have hsum : exactResult .add (ns.map Int64.toInt) = (ns.map Int64.toInt).foldl (· + ·) 0 :=
      List.sum_eq_foldl
    refine ⟨foldChecked .add (· + ·) 0 ns, ?_, hsum ▸ isExact_foldChecked .add (· + ·) 0 ns⟩
    simp only [Primitive.run, add, operands_integers]
    exact bind_pure_comp Value.int (foldChecked .add (· + ·) 0 ns)
  · match ns, hcount with
    | [n], _ =>
      refine ⟨checked .sub (-n.toInt), ?_, isExact_checked .sub _⟩
      simp only [Primitive.run, sub, operands_integers]
      exact bind_pure_comp Value.int (checked .sub (-n.toInt))
    | n :: m :: ns, _ =>
      have hdifference : exactResult .sub ((n :: m :: ns).map Int64.toInt) =
          ((m :: ns).map Int64.toInt).foldl (· - ·) n.toInt := (foldl_sub _ _).symm
      refine ⟨foldChecked .sub (· - ·) n (m :: ns), ?_,
        hdifference ▸ isExact_foldChecked .sub (· - ·) n (m :: ns)⟩
      simp only [Primitive.run, sub, operands_integers]
      exact bind_pure_comp Value.int (foldChecked .sub (· - ·) n (m :: ns))
  · have hproduct : exactResult .mul (ns.map Int64.toInt) = (ns.map Int64.toInt).foldl (· * ·) 1 :=
      List.prod_eq_foldl
    refine ⟨foldChecked .mul (· * ·) 1 ns, ?_, hproduct ▸ isExact_foldChecked .mul (· * ·) 1 ns⟩
    simp only [Primitive.run, mul, operands_integers]
    exact bind_pure_comp Value.int (foldChecked .mul (· * ·) 1 ns)

end Arithmetic

open Number Arithmetic

/-- Sums, differences and products are refused exactly if an operand is no number, and a float if
one is a float. Of integers they are exact if all partial results fit, and overflow exactly if one
does not. -/
theorem sums_and_products_are_exact {op : Primitive} (hop : op ∈ [Primitive.add, .sub, .mul])
    {args : List Value} (hcount : op.arity.accepts args.length = true) :
    ((∃ cause, op.run args = .error (.typeMismatch cause)) ↔ ∃ v ∈ args, v.isNumber = false) ∧
    ((∀ v ∈ args, v.isNumber = true) → (∃ v ∈ args, v.isFloat = true) →
      ∃ x, op.run args = .ok (.float x)) ∧
    ∀ ns : List Int64, args = ns.map .int →
      ((∀ p ∈ partialResults op (ns.map Int64.toInt), Fits p) →
        ∃ m, op.run args = .ok (.int m) ∧ m.toInt = exactResult op (ns.map Int64.toInt)) ∧
      ((∃ cause, op.run args = .error (.overflow cause)) ↔
        ∃ p ∈ partialResults op (ns.map Int64.toInt), ¬ Fits p) := by
  rcases operands_cases op args with
    ⟨v, hv, hother, hrefused⟩ | ⟨hnumbers, ⟨v, hv, hfloat⟩, xs, hlength, hxs⟩ | ⟨ns, rfl⟩
  · have hrun := run_refused hop hrefused
    refine ⟨⟨fun _ => ⟨v, hv, Bool.eq_false_iff.2 hother⟩, fun _ => ⟨_, hrun⟩⟩, ?_, ?_⟩
    · intro hnumbers
      exact absurd (hnumbers v hv) hother
    · rintro ns rfl
      exact absurd (kind_of_mem_integers hv).1 hother
  · obtain ⟨x, hx⟩ := run_floats hop (hlength ▸ hcount) hxs
    refine ⟨⟨?_, ?_⟩, fun _ _ => ⟨x, hx⟩, ?_⟩
    · rintro ⟨cause, hcause⟩
      exact absurd (hx.symm.trans hcause) (by simp)
    · rintro ⟨w, hw, hother⟩
      exact absurd (hnumbers w hw) (Bool.eq_false_iff.1 hother)
    · rintro ns rfl
      exact absurd hfloat (Bool.eq_false_iff.1 (kind_of_mem_integers hv).2)
  · have hlength : (ns.map Value.int).length = ns.length := List.length_map _
    obtain ⟨r, hr, hexact⟩ := run_integers hop (hlength ▸ hcount)
    refine ⟨⟨?_, ?_⟩, ?_, ?_⟩
    · rintro ⟨cause, hcause⟩
      exact absurd (hr.symm.trans hcause) hexact.not_typeMismatch
    · rintro ⟨v, hv, hother⟩
      exact absurd (kind_of_mem_integers hv).1 (Bool.eq_false_iff.1 hother)
    · rintro - ⟨v, hv, hfloat⟩
      exact absurd hfloat (Bool.eq_false_iff.1 (kind_of_mem_integers hv).2)
    · intro ms hms
      obtain rfl : ns = ms := List.map_injective_iff.2 (fun _ _ => Value.int.inj) hms
      refine ⟨fun hfits => ?_, hr ▸ hexact.overflow_iff⟩
      obtain ⟨m, rfl, hvalue⟩ := hexact.of_fits hfits
      exact ⟨m, hr, hvalue⟩

/-- A sum that leaves the range overflows, also if a later operand would bring it back. -/
theorem sum_over_largest_integer_overflows :
    Primitive.add ∈ [Primitive.add, .sub, .mul] ∧ Primitive.add.arity.accepts 3 = true ∧
      ∃ cause, Primitive.add.run [.int Int64.maxValue, .int 1, .int (-1)] =
        .error (.overflow cause) :=
  have hop : Primitive.add ∈ [Primitive.add, .sub, .mul] := by decide
  have hsums := @sums_and_products_are_exact .add hop [.int Int64.maxValue, .int 1, .int (-1)] rfl
  have hover : ¬ Fits (2 ^ 63) := by decide
  ⟨hop, rfl, (hsums.2.2 [Int64.maxValue, 1, -1] rfl).2.2 ⟨2 ^ 63, by decide, hover⟩⟩

end DynLisp
