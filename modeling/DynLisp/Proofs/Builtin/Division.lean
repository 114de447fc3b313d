import DynLisp.Proofs.Builtin.Arithmetic

/-!
# Division

`/` divides by one operand after the other, each time towards zero and with a check of the range.
On integers this is one division by the product of all divisors (`division_is_exact`), also where
the product is out of range:

* `tdiv_tdiv`: to divide twice is to divide by the product, so `foldl_tdiv` for any number of
  divisors;
* `tdiv_strictly_within`: a quotient by another divisor than 1 is closer to zero than the smallest
  integer, unless it is that of the smallest integer by -1. So only the first divisor that is not 1
  can lead out of range (`exists_not_fits_iff`).

An exact zero among the divisors is refused before anything is divided, also among floats.
-/

namespace DynLisp

namespace Arithmetic

open Number

/-! ## Quotients towards zero -/

theorem tdiv_tdiv (a b c : Int) : (a.tdiv b).tdiv c = a.tdiv (b * c) := by
  obtain ⟨k, rfl | rfl⟩ := a.eq_nat_or_neg <;> obtain ⟨m, rfl | rfl⟩ := b.eq_nat_or_neg <;>
    obtain ⟨n, rfl | rfl⟩ := c.eq_nat_or_neg <;>
    simp only [Int.neg_tdiv, Int.tdiv_neg, Int.neg_neg, Int.neg_mul, Int.mul_neg,
      ← Int.natCast_mul, ← Int.ofNat_tdiv, Nat.div_div_eq_div_mul]

theorem foldl_tdiv (a : Int) (bs : List Int) : bs.foldl Int.tdiv a = a.tdiv bs.prod := by
  induction bs generalizing a with
  | nil => simp
  | cons b bs ih => rw [List.foldl_cons, ih, tdiv_tdiv, List.prod_cons]

theorem tdiv_strictly_within {a b : Int} (ha : Fits a) (hb : b ≠ 0) (hone : b ≠ 1)
    (hmin : ¬ (a = -2 ^ 63 ∧ b = -1)) : -2 ^ 63 < a.tdiv b ∧ a.tdiv b < 2 ^ 63 := by
  obtain ⟨hlow, hhigh⟩ := ha
  by_cases hminus : b = -1
  · rw [hminus, Int.tdiv_neg, Int.tdiv_one]
    omega
  · have habs : (a.tdiv b).natAbs = a.natAbs / b.natAbs := Int.natAbs_tdiv a b
    have hhalf : a.natAbs / b.natAbs ≤ a.natAbs / 2 := Nat.div_le_div_left (by omega) (by omega)
    omega

/-- The quotients leave the range exactly if the smallest integer is divided by -1. -/
theorem exists_not_fits_iff {a : Int} {bs : List Int} (ha : Fits a) (hzero : 0 ∉ bs) :
    (∃ q ∈ bs.scanl Int.tdiv a, ¬ Fits q) ↔ a = -2 ^ 63 ∧ bs.find? (· ≠ 1) = some (-1) := by
  induction bs generalizing a with
  | nil => simp [ha]
  | cons b bs ih =>
    obtain ⟨hb, hbs⟩ : b ≠ 0 ∧ 0 ∉ bs := by
      simpa [eq_comm] using hzero
    have hlater : (∃ q ∈ (b :: bs).scanl Int.tdiv a, ¬ Fits q) ↔
        ∃ q ∈ bs.scanl Int.tdiv (a.tdiv b), ¬ Fits q := by
      simp [List.scanl_cons, ha]
    rw [hlater]
    -- A one changes nothing. Any other divisor leads out of range at once, or away from the smallest
    -- integer for good.
    by_cases hone : b = 1
    · rw [hone, Int.tdiv_one, ih ha hbs, List.find?_cons_of_neg (by simp)]
    rw [List.find?_cons_of_pos (by simpa using hone), Option.some.injEq]
    by_cases hmin : a = -2 ^ 63 ∧ b = -1
    · refine iff_of_true ⟨a.tdiv b, ?_, ?_⟩ hmin
      · cases bs <;> simp [List.scanl_cons]
      · rw [hmin.1, hmin.2]
        decide
    · obtain ⟨hlow, hhigh⟩ := tdiv_strictly_within ha hb hone hmin
      rw [ih ⟨by omega, hhigh⟩ hbs]
      exact iff_of_false (fun h => by omega) hmin

/-! ## The operation -/

variable {args : List Value}

/-- An exact zero divides. -/
def DividesByZero (args : List Value) : Prop :=
  args = [.int 0] ∨ .int 0 ∈ args.tail

theorem contains_divisors_iff : (divisors args).contains (.int 0) = true ↔ DividesByZero args := by
  match args with
  | [] => simp [divisors, DividesByZero]
  | [v] => simp [divisors, DividesByZero, eq_comm]
  | v :: w :: vs => simp [divisors, DividesByZero]

theorem run_div_refused {e : EvalError} (h : operands .div args = .error e) :
    Primitive.div.run args = .error e := by
  simp only [Primitive.run, div, h]
  rfl

theorem run_div_by_zero {sorted : Operands} (h : operands .div args = .ok sorted)
    (hzero : DividesByZero args) : Primitive.div.run args = .error .divideByZero := by
  simp only [Primitive.run, div, h, contains_divisors_iff.2 hzero]
  rfl

theorem run_div_floats {xs : List Float} (h : operands .div args = .ok (.floats xs)) (hxs : xs ≠ [])
    (hzero : ¬ DividesByZero args) : ∃ x, Primitive.div.run args = .ok (.float x) := by
  simp only [Primitive.run, div, h, mt contains_divisors_iff.1 hzero]
  rcases xs with _ | ⟨x, _ | ⟨y, xs⟩⟩
  · exact absurd rfl hxs
  · exact ⟨_, rfl⟩
  · exact ⟨_, rfl⟩

/-- What division gives on the operands so far, over the unbounded integers. A lone operand divides
1 at once. -/
def partialQuotients : List Int → List Int
  | [n] => [Int.tdiv 1 n]
  | n :: ns => ns.scanl Int.tdiv n
  | [] => []

/-- What division gives over the unbounded integers. -/
def exactQuotient : List Int → Int
  | [n] => Int.tdiv 1 n
  | n :: ns => n.tdiv ns.prod
  | [] => 0

theorem first_divisor_iff {bs : List Int64} :
    (bs.map Int64.toInt).find? (· ≠ 1) = some (-1) ↔ bs.find? (· ≠ 1) = some (-1) := by
  have hone : ((fun b : Int => decide (b ≠ 1)) ∘ Int64.toInt) = fun b => decide (b ≠ 1) :=
    funext fun b => decide_eq_decide.2 (not_congr (Int64.toInt_inj (y := 1)))
  have hminus : some (-1) = (some (-1) : Option Int64).map Int64.toInt := rfl
  rw [List.find?_map, hone, hminus]
  exact (Option.map_injective fun _ _ => Int64.toInt_inj.1).eq_iff

theorem run_div_integers {ns : List Int64} (hns : ns ≠ [])
    (hzero : ¬ DividesByZero (ns.map .int)) :
    ∃ r, Primitive.div.run (ns.map .int) = Value.int <$> r ∧
      IsExact .div r (partialQuotients (ns.map Int64.toInt))
        (exactQuotient (ns.map Int64.toInt)) := by
  simp only [Primitive.run, div, operands_integers, mt contains_divisors_iff.1 hzero]
  rcases ns with _ | ⟨n, _ | ⟨m, ns⟩⟩
  · exact absurd rfl hns
  · refine ⟨checked .div (Int.tdiv 1 n.toInt), ?_, isExact_checked .div _⟩
    exact bind_pure_comp Value.int (checked .div (Int.tdiv 1 n.toInt))
  · have hquotient : exactQuotient ((n :: m :: ns).map Int64.toInt) =
        ((m :: ns).map Int64.toInt).foldl Int.tdiv n.toInt := (foldl_tdiv _ _).symm
    refine ⟨foldChecked .div Int.tdiv n (m :: ns), ?_,
      hquotient ▸ isExact_foldChecked .div Int.tdiv n (m :: ns)⟩
    exact bind_pure_comp Value.int (foldChecked .div Int.tdiv n (m :: ns))

/-- Of numbers division fails on a zero divisor, and otherwise gives a result or overflows. -/
theorem run_div_of_numbers (hargs : args ≠ []) (hnumbers : ∀ v ∈ args, v.isNumber = true) :
    DividesByZero args ∧ Primitive.div.run args = .error .divideByZero ∨
    ¬ DividesByZero args ∧ ((∃ v, Primitive.div.run args = .ok v) ∨
      ∃ cause, Primitive.div.run args = .error (.overflow cause)) := by
  rcases operands_cases .div args with
    ⟨v, hv, hother, -⟩ | ⟨-, -, xs, hlength, hxs⟩ | ⟨ns, rfl⟩
  · exact absurd (hnumbers v hv) hother
  · by_cases hzero : DividesByZero args
    · exact .inl ⟨hzero, run_div_by_zero hxs hzero⟩
    · have hne : xs ≠ [] := List.ne_nil_of_length_pos (hlength ▸ List.length_pos_iff.2 hargs)
      obtain ⟨x, hx⟩ := run_div_floats hxs hne hzero
      exact .inr ⟨hzero, .inl ⟨_, hx⟩⟩
  · by_cases hzero : DividesByZero (ns.map .int)
    · exact .inl ⟨hzero, run_div_by_zero (operands_integers .div ns) hzero⟩
    · obtain ⟨r, hr, hexact⟩ := run_div_integers (mt (congrArg (List.map Value.int)) hargs) hzero
      rcases hexact.fits_or_overflow with ⟨-, m, hm, -⟩ | ⟨-, hover⟩
      · exact .inr ⟨hzero, .inl ⟨_, hr.trans hm⟩⟩
      · exact .inr ⟨hzero, .inr ⟨_, hr.trans hover⟩⟩

theorem run_div_typeMismatch_iff (hargs : args ≠ []) :
    (∃ cause, Primitive.div.run args = .error (.typeMismatch cause)) ↔
      ∃ v ∈ args, v.isNumber = false := by
  constructor
  · rintro ⟨cause, hcause⟩
    by_contra hnumbers
    simp only [not_exists, not_and, Bool.not_eq_false] at hnumbers
    rcases run_div_of_numbers hargs hnumbers with ⟨-, h⟩ | ⟨-, ⟨v, h⟩ | ⟨_, h⟩⟩ <;>
      simp [h] at hcause
  · rintro ⟨v, hv, hother⟩
    rcases operands_cases .div args with ⟨w, -, -, hrefused⟩ | ⟨hnumbers, -⟩ | ⟨ns, rfl⟩
    · exact ⟨_, run_div_refused hrefused⟩
    · exact absurd (hnumbers v hv) (Bool.eq_false_iff.1 hother)
    · exact absurd (kind_of_mem_integers hv).1 (Bool.eq_false_iff.1 hother)

theorem run_div_divideByZero_iff (hargs : args ≠ []) (hnumbers : ∀ v ∈ args, v.isNumber = true) :
    Primitive.div.run args = .error .divideByZero ↔ DividesByZero args := by
  rcases run_div_of_numbers hargs hnumbers with ⟨hzero, h⟩ | ⟨hzero, ⟨v, h⟩ | ⟨_, h⟩⟩ <;>
    simp [h, hzero]

theorem run_div_of_float (hargs : args ≠ []) (hnumbers : ∀ v ∈ args, v.isNumber = true)
    (hfloat : ∃ v ∈ args, v.isFloat = true) (hzero : ¬ DividesByZero args) :
    ∃ x, Primitive.div.run args = .ok (.float x) := by
  rcases operands_cases .div args with
    ⟨v, hv, hother, -⟩ | ⟨-, -, xs, hlength, hxs⟩ | ⟨ns, rfl⟩
  · exact absurd (hnumbers v hv) hother
  · have hne : xs ≠ [] := List.ne_nil_of_length_pos (hlength ▸ List.length_pos_iff.2 hargs)
    exact run_div_floats hxs hne hzero
  · obtain ⟨v, hv, hfloat⟩ := hfloat
    exact absurd hfloat (Bool.eq_false_iff.1 (kind_of_mem_integers hv).2)

/-- The reciprocal of an integer is always in range. -/
theorem run_div_integer {n : Int64} (hn : n ≠ 0) :
    ∃ m, Primitive.div.run [.int n] = .ok (.int m) ∧ m.toInt = Int.tdiv 1 n.toInt := by
  have hzero : ¬ DividesByZero [.int n] := by simpa [DividesByZero] using hn
  obtain ⟨r, hr, hexact⟩ := run_div_integers (List.cons_ne_nil n []) hzero
  have hfits : Fits (Int.tdiv 1 n.toInt) := by
    have habs : (Int.tdiv 1 n.toInt).natAbs ≤ 1 := Int.natAbs_tdiv_le_natAbs 1 n.toInt
    constructor <;> omega
  obtain ⟨m, rfl, hm⟩ := hexact.of_fits (List.forall_mem_singleton.2 hfits)
  exact ⟨m, hr, hm⟩

theorem run_div_integer_by {a : Int64} {bs : List Int64} (hbs : bs ≠ []) (hzero : 0 ∉ bs) :
    ((∃ cause, Primitive.div.run (.int a :: bs.map .int) = .error (.overflow cause)) ↔
      a.toInt = -2 ^ 63 ∧ bs.find? (· ≠ 1) = some (-1)) ∧
    (¬ (a.toInt = -2 ^ 63 ∧ bs.find? (· ≠ 1) = some (-1)) →
      ∃ m, Primitive.div.run (.int a :: bs.map .int) = .ok (.int m) ∧
        m.toInt = a.toInt.tdiv (bs.map Int64.toInt).prod) := by
  obtain ⟨b, bs, rfl⟩ := List.exists_cons_of_ne_nil hbs
  have hargs : ¬ DividesByZero ((a :: b :: bs).map .int) := by simpa [DividesByZero] using hzero
  have hdivisors : 0 ∉ (b :: bs).map Int64.toInt := by
    rintro hmem
    obtain ⟨c, hc, hc0⟩ := List.mem_map.1 hmem
    exact hzero ((Int64.toInt_inj (y := 0)).1 hc0 ▸ hc)
  obtain ⟨r, hr, hexact⟩ := run_div_integers (List.cons_ne_nil a (b :: bs)) hargs
  have hover := (exists_not_fits_iff (fits_toInt a) hdivisors).trans
    (and_congr_right' first_divisor_iff)
  refine ⟨(hr ▸ hexact.overflow_iff).trans hover, fun h => ?_⟩
  have hfits : ∀ q ∈ ((b :: bs).map Int64.toInt).scanl Int.tdiv a.toInt, Fits q := by
    simpa using mt hover.1 h
  obtain ⟨m, rfl, hm⟩ := hexact.of_fits hfits
  exact ⟨m, hr, hm⟩

/-- An exact quotient by a divisor gives back the dividend. -/
theorem run_mul_quotient {a b q : Int64} (h : q.toInt * b.toInt = a.toInt) :
    Primitive.mul.run [.int q, .int b] = .ok (.int a) := by
  obtain ⟨r, hr, hexact⟩ := @run_integers .mul (by decide) [q, b] rfl
  have hfits : ∀ p ∈ partialResults .mul [q.toInt, b.toInt], Fits p := by
    simp only [partialResults, List.scanl_cons, List.scanl_nil, Int.one_mul, h, List.mem_cons,
      List.not_mem_nil, or_false, forall_eq_or_imp, forall_eq]
    exact ⟨by decide, fits_toInt q, fits_toInt a⟩
  obtain ⟨m, rfl, hm⟩ := hexact.of_fits hfits
  have hvalue : m.toInt = a.toInt := by
    rw [hm, ← h]
    simp [exactResult]
  rw [Int64.toInt_inj.1 hvalue] at hr
  exact hr

end Arithmetic

open Number Arithmetic

/-- Division is refused exactly if an operand is no number, and otherwise fails on an exact zero
divisor exactly. Else one float makes the quotient a float; that of integers is the exact one by the
product of the divisors towards zero, where only the smallest integer divided by -1, possibly after
ones, overflows. A quotient without remainder gives back the dividend. -/
theorem division_is_exact {args : List Value} (hargs : args ≠ []) :
    ((∃ cause, Primitive.div.run args = .error (.typeMismatch cause)) ↔
      ∃ v ∈ args, v.isNumber = false) ∧
    ((∀ v ∈ args, v.isNumber = true) →
      (Primitive.div.run args = .error .divideByZero ↔ args = [.int 0] ∨ .int 0 ∈ args.tail) ∧
      ((∃ v ∈ args, v.isFloat = true) → ¬ (args = [.int 0] ∨ .int 0 ∈ args.tail) →
        ∃ x, Primitive.div.run args = .ok (.float x))) ∧
    (∀ n : Int64, args = [.int n] → n ≠ 0 →
      ∃ m, Primitive.div.run args = .ok (.int m) ∧ m.toInt = Int.tdiv 1 n.toInt) ∧
    (∀ (a : Int64) (bs : List Int64), args = .int a :: bs.map .int → bs ≠ [] → 0 ∉ bs →
      ((∃ cause, Primitive.div.run args = .error (.overflow cause)) ↔
        a.toInt = -2 ^ 63 ∧ bs.find? (· ≠ 1) = some (-1)) ∧
      (¬ (a.toInt = -2 ^ 63 ∧ bs.find? (· ≠ 1) = some (-1)) →
        ∃ m, Primitive.div.run args = .ok (.int m) ∧
          m.toInt = a.toInt.tdiv (bs.map Int64.toInt).prod)) ∧
    ∀ a b : Int64, args = [.int a, .int b] → b ≠ 0 → b.toInt ∣ a.toInt →
      (∃ cause, Primitive.div.run args = .error (.overflow cause)) ∨
      ∃ q, Primitive.div.run args = .ok q ∧ Primitive.mul.run [q, .int b] = .ok (.int a) := by
  refine ⟨run_div_typeMismatch_iff hargs, fun hnumbers => ⟨?_, ?_⟩, ?_, ?_, ?_⟩
  · exact run_div_divideByZero_iff hargs hnumbers
  · exact fun hfloat hzero => run_div_of_float hargs hnumbers hfloat hzero
  · rintro n rfl hn
    exact run_div_integer hn
  · rintro a bs rfl hbs hzero
    exact run_div_integer_by hbs hzero
  · rintro a b rfl hb hdvd
    obtain ⟨hover, hquotient⟩ := @run_div_integer_by a [b] (List.cons_ne_nil b [])
      (by simpa [eq_comm] using hb)
    by_cases hmin : a.toInt = -2 ^ 63 ∧ [b].find? (· ≠ 1) = some (-1)
    · exact .inl (hover.2 hmin)
    · obtain ⟨q, hq, hvalue⟩ := hquotient hmin
      refine .inr ⟨.int q, hq, run_mul_quotient ?_⟩
      rw [hvalue, List.map_singleton, List.prod_singleton, Int.tdiv_mul_cancel hdvd]

/-- The smallest integer divided by -1 overflows also after a division by 1, and before another by
-1 that would bring it back. -/
theorem smallest_integer_by_minus_one_overflows :
    [Value.int Int64.minValue, .int 1, .int (-1), .int (-1)] ≠ [] ∧
      ∃ cause, Primitive.div.run [.int Int64.minValue, .int 1, .int (-1), .int (-1)] =
        .error (.overflow cause) :=
  have hargs : [Value.int Int64.minValue, .int 1, .int (-1), .int (-1)] ≠ [] := List.cons_ne_nil _ _
  have hquotients := (division_is_exact hargs).2.2.2.1 Int64.minValue [1, -1, -1] rfl
  ⟨hargs, (hquotients (List.cons_ne_nil _ _) (by decide)).1.2 ⟨by decide, by decide⟩⟩

end DynLisp
