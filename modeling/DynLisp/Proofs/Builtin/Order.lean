import DynLisp.Builtin.Primitive
import DynLisp.Proofs.Number.FloatOrder
import Mathlib.Data.List.Pairwise

/-!
# The order of values

`<` compares neighbours only, but answers whether every value is less than every later one
(`less_answers_whether_all_increase`): being less is transitive, also among integers and floats.
Integers are compared exactly among themselves and by their floats with others; what carries the
cases is the place of a number among the floats (`place?`), which making an integer a float never
turns round (`exists_places_of_isBelow`).

Comparing all neighbours also finds out whether numbers and symbols are mixed anywhere
(`increasing_cases`), since neighbours of one kind make a list of one kind.
-/

namespace DynLisp

namespace Order

open FloatOrder

variable {u v w : Value} {vs : List Value}

/-! ## Two values -/

/-- Both values are numbers, or both are symbols. -/
def SameKind (v w : Value) : Prop :=
  (v.isNumber = true ∧ w.isNumber = true) ∨ (v.isSymbol = true ∧ w.isSymbol = true)

/-- One value is less than another. -/
def IsBelow (v w : Value) : Prop :=
  less? v w = .ok true

theorem less?_cases (v w : Value) :
    (SameKind v w ∧ ∃ b, less? v w = .ok b) ∨
    (¬ SameKind v w ∧ less? v w = .error (.typeMismatch (.differentKinds v w))) := by
  cases v <;> cases w <;>
    simp [SameKind, less?, Value.isNumber, Value.isInt, Value.isFloat, Value.isSymbol,
      Value.toFloat?]

theorem IsBelow.sameKind (h : IsBelow v w) : SameKind v w := by
  rcases less?_cases v w with ⟨hkind, -⟩ | ⟨-, herror⟩
  · exact hkind
  · cases h.symm.trans herror

theorem exists_symbol (h : v.isSymbol = true) : ∃ s, v = .symbol s := by
  cases v with
  | symbol s => exact ⟨s, rfl⟩
  | _ => cases h

theorem exists_int (h : v.isNumber = true) (hexact : ¬ v.isFloat = true) : ∃ n, v = .int n := by
  cases v with
  | int n => exact ⟨n, rfl⟩
  | float x => exact absurd rfl hexact
  | _ => cases h

theorem exists_toFloat? (h : v.isNumber = true) : ∃ x, v.toFloat? = some x := by
  cases v with
  | int n => exact ⟨_, rfl⟩
  | float x => exact ⟨x, rfl⟩
  | _ => cases h

theorem not_isSymbol_of_isNumber (h : v.isNumber = true) : ¬ v.isSymbol = true := by
  cases v with
  | symbol s => cases h
  | _ => exact Bool.false_ne_true

theorem SameKind.trans_cases (huv : SameKind u v) (hvw : SameKind v w) :
    (u.isNumber = true ∧ v.isNumber = true ∧ w.isNumber = true) ∨
      (u.isSymbol = true ∧ v.isSymbol = true ∧ w.isSymbol = true) := by
  rcases huv with ⟨hu, hv⟩ | ⟨hu, hv⟩ <;> rcases hvw with ⟨hv', hw⟩ | ⟨hv', hw⟩
  · exact .inl ⟨hu, hv, hw⟩
  · exact absurd hv' (not_isSymbol_of_isNumber hv)
  · exact absurd hv (not_isSymbol_of_isNumber hv')
  · exact .inr ⟨hu, hv, hw⟩

/-- Where a number stands among the floats; an integer where it is rounded to. -/
def place? : Value → Option Rank
  | .int n => some (intRank n.toInt)
  | .float x => rank? x
  | _ => none

theorem place?_eq {x : Float} (h : v.toFloat? = some x) : place? v = rank? x := by
  cases v with
  | int n =>
    cases h
    have hlow : -2 ^ 63 ≤ n.toInt := n.minValue_le_toInt
    have hhigh : n.toInt ≤ 2 ^ 63 - 1 := n.toInt_le
    exact (rank?_ofInt (by omega)).symm
  | float y =>
    cases h
    rfl
  | _ => cases h

theorem isBelow_symbol_iff {s t : String} : IsBelow (.symbol s) (.symbol t) ↔ s < t := by
  simp [IsBelow, less?]

theorem isBelow_int_iff {n m : Int64} : IsBelow (.int n) (.int m) ↔ n.toInt < m.toInt := by
  simp [IsBelow, less?, Int64.lt_iff_toInt_lt]

theorem isBelow_float_iff (hv : v.isNumber = true) (hw : w.isNumber = true)
    (hfloat : v.isFloat = true ∨ w.isFloat = true) :
    IsBelow v w ↔ ∃ r s, place? v = some r ∧ place? w = some s ∧ r < s := by
  obtain ⟨x, hx⟩ := exists_toFloat? hv
  obtain ⟨y, hy⟩ := exists_toFloat? hw
  have hless : less? v w = .ok (decide (x < y)) := by
    cases v <;> cases w <;> simp_all [less?, Value.isFloat, Value.toFloat?]
  rw [IsBelow, hless, Except.ok.injEq, decide_eq_true_iff, lt_iff_rank, place?_eq hx, place?_eq hy]

theorem exists_places_of_isBelow (hv : v.isNumber = true) (hw : w.isNumber = true)
    (h : IsBelow v w) : ∃ r s, place? v = some r ∧ place? w = some s ∧ r ≤ s ∧
      (v.isFloat = true ∨ w.isFloat = true → r < s) := by
  by_cases hfloat : v.isFloat = true ∨ w.isFloat = true
  · obtain ⟨r, s, hr, hs, hlt⟩ := (isBelow_float_iff hv hw hfloat).1 h
    exact ⟨r, s, hr, hs, hlt.le, fun _ => hlt⟩
  · obtain ⟨n, rfl⟩ := exists_int hv (fun h => hfloat (.inl h))
    obtain ⟨m, rfl⟩ := exists_int hw (fun h => hfloat (.inr h))
    have hle := intRank_mono (isBelow_int_iff.1 h).le
    exact ⟨_, _, rfl, rfl, hle, fun h => absurd h hfloat⟩

theorem not_isBelow_self (v : Value) : ¬ IsBelow v v := by
  intro h
  rcases h.sameKind with ⟨hv, -⟩ | ⟨hv, -⟩
  · by_cases hfloat : v.isFloat = true
    · obtain ⟨r, s, hr, hs, hlt⟩ := (isBelow_float_iff hv hv (.inl hfloat)).1 h
      cases hr.symm.trans hs
      exact lt_irrefl r hlt
    · obtain ⟨n, rfl⟩ := exists_int hv hfloat
      exact lt_irrefl _ (isBelow_int_iff.1 h)
  · obtain ⟨s, rfl⟩ := exists_symbol hv
    exact String.lt_irrefl s (isBelow_symbol_iff.1 h)

/-- Being less is transitive. A float between two integers keeps their floats apart, and with them
the integers. -/
theorem IsBelow.trans (huv : IsBelow u v) (hvw : IsBelow v w) : IsBelow u w := by
  rcases huv.sameKind.trans_cases hvw.sameKind with ⟨hu, hv, hw⟩ | ⟨hu, hv, hw⟩
  · obtain ⟨r, s, hr, hs, hrs, hrs'⟩ := exists_places_of_isBelow hu hv huv
    obtain ⟨s', t, hs', ht, hst, hst'⟩ := exists_places_of_isBelow hv hw hvw
    cases hs.symm.trans hs'
    -- With a float at either end, one of the two steps is strict and the ends are compared as
    -- floats.
    by_cases hfloat : u.isFloat = true ∨ w.isFloat = true
    · refine (isBelow_float_iff hu hw hfloat).2 ⟨r, t, hr, ht, ?_⟩
      rcases hfloat with hfloat | hfloat
      · exact (hrs' (.inl hfloat)).trans_le hst
      · exact hrs.trans_lt (hst' (.inr hfloat))
    · obtain ⟨n, rfl⟩ := exists_int hu (fun h => hfloat (.inl h))
      obtain ⟨m, rfl⟩ := exists_int hw (fun h => hfloat (.inr h))
      by_cases hbetween : v.isFloat = true
      · have hlt : r < t := (hrs' (.inr hbetween)).trans (hst' (.inl hbetween))
        cases hr
        cases ht
        exact isBelow_int_iff.2 (lt_of_not_ge fun hle => hlt.not_ge (intRank_mono hle))
      · obtain ⟨k, rfl⟩ := exists_int hv hbetween
        exact isBelow_int_iff.2 ((isBelow_int_iff.1 huv).trans (isBelow_int_iff.1 hvw))
  · obtain ⟨s, rfl⟩ := exists_symbol hu
    obtain ⟨t, rfl⟩ := exists_symbol hv
    obtain ⟨t', rfl⟩ := exists_symbol hw
    exact isBelow_symbol_iff.2
      (String.lt_trans (isBelow_symbol_iff.1 huv) (isBelow_symbol_iff.1 hvw))

/-! ## Lists -/

/-- Values that cannot be put in order: one is neither number nor symbol, or there are both. -/
def Incomparable (vs : List Value) : Prop :=
  (∃ v ∈ vs, v.isNumber = false ∧ v.isSymbol = false) ∨
    (∃ v ∈ vs, v.isNumber = true) ∧ ∃ v ∈ vs, v.isSymbol = true

instance : Std.Symm SameKind where
  symm _ _ h := h.imp And.symm And.symm

instance : Trans SameKind SameKind SameKind where
  trans huv hvw := (huv.trans_cases hvw).imp (fun h => ⟨h.1, h.2.2⟩) fun h => ⟨h.1, h.2.2⟩

instance : Trans IsBelow IsBelow IsBelow where
  trans := IsBelow.trans

theorem increasing_cases (vs : List Value) :
    (vs.IsChain SameKind ∧ ∃ b, increasing vs = .ok b ∧ (b = true ↔ vs.IsChain IsBelow)) ∨
    (¬ vs.IsChain SameKind ∧ ∃ cause, increasing vs = .error (.typeMismatch cause)) := by
  induction vs with
  | nil => exact .inl ⟨.nil, true, rfl, by simp⟩
  | cons v vs ih =>
    cases vs with
    | nil => exact .inl ⟨.singleton v, true, rfl, by simp⟩
    | cons w vs =>
      rcases less?_cases v w with ⟨hkind, first, hfirst⟩ | ⟨hkind, herror⟩
      · rcases ih with ⟨hkinds, others, hothers, hiff⟩ | ⟨hkinds, cause, herror⟩
        · refine .inl ⟨.cons_cons hkind hkinds, first && others, ?_, ?_⟩
          · simp only [increasing, hfirst, hothers]
            rfl
          · rw [Bool.and_eq_true, hiff, List.isChain_cons_cons, IsBelow, hfirst, Except.ok.injEq]
        · refine .inr ⟨fun h => hkinds (List.isChain_cons_cons.1 h).2, cause, ?_⟩
          simp only [increasing, hfirst, herror]
          rfl
      · refine .inr ⟨fun h => hkind (List.isChain_cons_cons.1 h).1, .differentKinds v w, ?_⟩
        simp only [increasing, herror]
        rfl

/-- Among values that can be compared at all, neighbours of one kind make a list of one kind. -/
theorem isChain_sameKind_iff (hordered : ∀ v ∈ vs, isOrdered v = true) :
    vs.IsChain SameKind ↔ ¬ Incomparable vs := by
  have hkind : ∀ v ∈ vs, v.isNumber = true ∨ v.isSymbol = true := fun v hv =>
    Bool.or_eq_true_iff.1 (hordered v hv)
  rw [List.isChain_iff_pairwise]
  constructor
  · intro hpairs
    have hself : ∀ v ∈ vs, SameKind v v := fun v hv =>
      (hkind v hv).imp (fun h => ⟨h, h⟩) fun h => ⟨h, h⟩
    have hall := hpairs.forall_of_forall hself
    rintro (⟨v, hv, hnumber, hsymbol⟩ | ⟨⟨v, hv, hnumber⟩, w, hw, hsymbol⟩)
    · rcases hkind v hv with h | h
      · exact Bool.false_ne_true (hnumber.symm.trans h)
      · exact Bool.false_ne_true (hsymbol.symm.trans h)
    · rcases hall hv hw with ⟨-, h⟩ | ⟨h, -⟩
      · exact not_isSymbol_of_isNumber h hsymbol
      · exact not_isSymbol_of_isNumber hnumber h
  · intro hcomparable
    refine List.pairwise_of_forall_mem_list fun v hv w hw => ?_
    rcases hkind v hv with hnumber | hsymbol
    · refine .inl ⟨hnumber, (hkind w hw).resolve_right fun h => ?_⟩
      exact hcomparable (.inr ⟨⟨v, hv, hnumber⟩, w, hw, h⟩)
    · refine .inr ⟨hsymbol, (hkind w hw).resolve_left fun h => ?_⟩
      exact hcomparable (.inr ⟨⟨w, hw, h⟩, v, hv, hsymbol⟩)

theorem less_cases (vs : List Value) :
    (Incomparable vs ∧ ∃ cause, less vs = .error (.typeMismatch cause)) ∨
    (¬ Incomparable vs ∧ ∃ b, less vs = .ok (.ofBool b) ∧ (b = true ↔ vs.Pairwise IsBelow)) := by
  rcases hfind : vs.find? fun v => !isOrdered v with _ | v
  · have hordered : ∀ v ∈ vs, isOrdered v = true := fun v hv => by
      simpa using List.find?_eq_none.1 hfind v hv
    rw [← isChain_sameKind_iff hordered, ← List.isChain_iff_pairwise]
    rcases increasing_cases vs with ⟨hkinds, b, hb, hiff⟩ | ⟨hkinds, cause, herror⟩
    · refine .inr ⟨hkinds, b, ?_, hiff⟩
      simp only [less, hfind, hb]
      rfl
    · refine .inl ⟨not_not.1 (mt (isChain_sameKind_iff hordered).2 hkinds), cause, ?_⟩
      simp only [less, hfind, herror]
      rfl
  · have hv : isOrdered v = false := by simpa using List.find?_some hfind
    have hmem := List.mem_of_find?_eq_some hfind
    refine .inl ⟨.inl ⟨v, hmem, Bool.or_eq_false_iff.1 hv⟩, .notOrdered v, ?_⟩
    simp only [less, hfind]

/-! ## The operation -/

/-- The operation `<` answers 1 for two values. -/
def IsLess (v w : Value) : Prop :=
  Primitive.less.run [v, w] = .ok (.int 1)

theorem SameKind.not_incomparable (h : SameKind v w) : ¬ Incomparable [v, w] := by
  simp only [Incomparable, List.mem_cons, List.not_mem_nil, or_false, exists_eq_or_imp,
    exists_eq_left]
  rcases h with ⟨hv, hw⟩ | ⟨hv, hw⟩
  · simp [hv, hw, not_isSymbol_of_isNumber hv, not_isSymbol_of_isNumber hw]
  · have hv' : ¬ v.isNumber = true := fun h => not_isSymbol_of_isNumber h hv
    have hw' : ¬ w.isNumber = true := fun h => not_isSymbol_of_isNumber h hw
    simp [hv, hw, hv', hw']

theorem ofBool_eq_iff {b : Bool} : Value.ofBool b = .int 1 ↔ b = true := by
  cases b <;> simp [Value.ofBool]

theorem isLess_iff : IsLess v w ↔ IsBelow v w := by
  have hrun : Primitive.less.run [v, w] = less [v, w] := rfl
  rw [IsLess, hrun]
  rcases less_cases [v, w] with ⟨hmixed, cause, herror⟩ | ⟨-, b, hb, hiff⟩
  · rw [herror]
    exact iff_of_false (by simp) fun h => h.sameKind.not_incomparable hmixed
  · rw [hb, Except.ok.injEq, ofBool_eq_iff, hiff, List.pairwise_pair]

/-- The operation `<` fails exactly on values that cannot all be compared. Otherwise it answers
whether every value is less than all later ones, and being less is a strict order. -/
theorem less_answers_whether_all_increase (vs : List Value) :
    ((∃ cause, Primitive.less.run vs = .error (.typeMismatch cause)) ↔ Incomparable vs) ∧
    (Primitive.less.run vs = .ok (.int 1) ↔ ¬ Incomparable vs ∧ vs.Pairwise IsLess) ∧
    (Primitive.less.run vs = .ok (.int 0) ↔ ¬ Incomparable vs ∧ ¬ vs.Pairwise IsLess) ∧
    (∀ v, ¬ IsLess v v) ∧ ∀ u v w, IsLess u v → IsLess v w → IsLess u w := by
  have hless : IsLess = IsBelow := funext₂ fun v w => propext isLess_iff
  have hrun : Primitive.less.run vs = less vs := rfl
  rw [hless, hrun]
  refine ⟨?_, ?_, ?_, not_isBelow_self, fun _ _ _ => IsBelow.trans⟩ <;>
    rcases less_cases vs with ⟨hmixed, cause, herror⟩ | ⟨hmixed, b, hb, hiff⟩
  · exact iff_of_true ⟨cause, herror⟩ hmixed
  · simp [hb, hmixed]
  · simp [herror, hmixed]
  · simp [hb, hmixed, ofBool_eq_iff, hiff]
  · simp [herror, hmixed]
  · cases b <;> simp_all [Value.ofBool]

-- A float is not less than a larger integer that is rounded to it.
example : Primitive.less.run [.float (Float.ofInt (2 ^ 53)), .int (2 ^ 53 + 1)] = .ok (.int 0) := by
  decide +kernel

end Order

end DynLisp
