import Mathlib.Algebra.Group.Nat.Defs
import Mathlib.Data.List.Induction
import Mathlib.Data.List.TakeDrop
import Mathlib.Data.List.TakeWhile
import DynLisp.Proofs.Reading.Grammar

/-!
# Reading atoms

The functions that take numerals apart find what the grammar says there is:

* `digitsOf_iff`, `integerText_iff`: digits are counted as the numbers that they stand for;
* `ofChars?_eq_some_iff`: exactly the literals are numerals;
* `looksNumeric_iff`: exactly what begins like a number looks numeric;
* `readAtom_eq_ok_iff`: exactly the atoms of the grammar are read, with the values they stand for.
-/

namespace DynLisp.Reader

/-! ## Signs and digits -/

/-- The text does not begin with a sign. -/
def NoSign (s : List Char) : Prop :=
  ∀ c ∈ s.head?, c ≠ '+' ∧ c ≠ '-'

/-- The text does not begin with a digit. -/
def NoDigit (s : List Char) : Prop :=
  ∀ c ∈ s.head?, isDigit c = false

theorem isDigit_ne {c d : Char} (h : isDigit c = true) (h' : isDigit d = false) : c ≠ d := by
  rintro rfl
  rw [h] at h'
  cases h'

theorem NoSign.cons_of_isDigit {c : Char} (h : isDigit c = true) (s : List Char) :
    NoSign (c :: s) := by
  intro c' hc
  cases hc
  exact ⟨isDigit_ne h (by decide), isDigit_ne h (by decide)⟩

theorem NoSign.of_digits {ds : List Char} (h : Digits ds) (s : List Char)
    (h' : ds = [] → NoSign s) : NoSign (ds ++ s) := by
  cases ds with
  | nil => exact h' rfl
  | cons d ds => exact .cons_of_isDigit (digits_iff.1 h d List.mem_cons_self) (ds ++ s)

/-- A sign, or none, and a rest. -/
theorem takeSign_cases (cs : List Char) : ∃ negative sign s, SignText negative sign ∧
    cs = sign ++ s ∧ takeSign cs = (negative, s) := by
  unfold takeSign
  split
  · exact ⟨true, ['-'], _, .minus, rfl, rfl⟩
  · exact ⟨false, ['+'], _, .plus, rfl, rfl⟩
  · exact ⟨false, [], cs, .none, rfl, rfl⟩

theorem takeSign_append {negative : Bool} {sign s : List Char} (h : SignText negative sign)
    (hs : NoSign s) : takeSign (sign ++ s) = (negative, s) := by
  cases h with
  | plus => rfl
  | minus => rfl
  | none =>
    cases s with
    | nil => rfl
    | cons c s =>
      obtain ⟨hplus, hminus⟩ := hs c rfl
      show takeSign (c :: s) = _
      unfold takeSign
      split
      · rename_i heq
        cases heq
        exact (hminus rfl).elim
      · rename_i heq
        cases heq
        exact (hplus rfl).elim
      · rfl

/-- A text of digits, and a rest that begins with none. -/
theorem takeDigits_eq_iff {cs ds s : List Char} :
    takeDigits cs = (ds, s) ↔ Digits ds ∧ NoDigit s ∧ cs = ds ++ s := by
  unfold takeDigits
  rw [List.span_eq_takeWhile_dropWhile]
  constructor
  · intro h
    cases h
    exact ⟨digits_iff.2 fun c hc => List.mem_takeWhile_imp hc, head?_dropWhile_false isDigit cs,
      List.takeWhile_append_dropWhile.symm⟩
  · rintro ⟨hds, hs, rfl⟩
    rw [digits_iff] at hds
    rw [List.takeWhile_append_of_pos hds, List.dropWhile_append_of_pos hds]
    cases s with
    | nil => rw [List.takeWhile_nil, List.append_nil, List.dropWhile_nil]
    | cons c s =>
      have hc : ¬ isDigit c = true := Bool.eq_false_iff.1 (hs c rfl)
      rw [List.takeWhile_cons_of_neg hc, List.append_nil, List.dropWhile_cons_of_neg hc]

theorem takeDigits_append {ds s : List Char} (h : Digits ds) (hs : NoDigit s) :
    takeDigits (ds ++ s) = (ds, s) :=
  takeDigits_eq_iff.2 ⟨h, hs, rfl⟩

theorem takeDigits_self {ds : List Char} (h : Digits ds) : takeDigits ds = (ds, []) :=
  takeDigits_eq_iff.2 ⟨h, fun _ hc => (nomatch hc), (List.append_nil ds).symm⟩

theorem takeDigits_cases (cs : List Char) : ∃ ds s, Digits ds ∧ NoDigit s ∧ cs = ds ++ s ∧
    takeDigits cs = (ds, s) := by
  obtain ⟨hds, hs, hcs⟩ := takeDigits_eq_iff.1 (Eq.refl (takeDigits cs))
  exact ⟨_, _, hds, hs, hcs, rfl⟩

/-! ## The numbers that digits stand for -/

theorem digitsValue_append (ds ds' : List Char) :
    digitsValue (ds ++ ds') = digitsValue ds * 10 ^ ds'.length + digitsValue ds' := by
  unfold digitsValue
  rw [Nat.ofDigitChars_append, Nat.ofDigitChars_eq_ofDigitChars_zero, Nat.mul_comm]

theorem digitsValue_concat {d : Nat} {c : Char} (h : DigitChar d c) (ds : List Char) :
    digitsValue (ds ++ [c]) = 10 * digitsValue ds + d := by
  have hlast : digitsValue [c] = d := by
    unfold digitsValue
    rw [Nat.ofDigitChars_cons, Nat.ofDigitChars_nil, h.2]
    omega
  rw [digitsValue_append, hlast, List.length_singleton, Nat.pow_one, Nat.mul_comm]

theorem DigitsOf.digits {n : Nat} {ds : List Char} (h : DigitsOf n ds) :
    Digits ds ∧ digitsValue ds = n := by
  induction h with
  | nil => exact ⟨nofun, rfl⟩
  | @snoc n d ds c _ hc ih =>
    refine ⟨List.forall_mem_append.2 ⟨ih.1, List.forall_mem_singleton.2 ⟨d, hc⟩⟩, ?_⟩
    rw [digitsValue_concat hc, ih.2]

theorem Digits.digitsOf {ds : List Char} (h : Digits ds) : DigitsOf (digitsValue ds) ds := by
  induction ds using List.reverseRecOn with
  | nil => exact .nil
  | append_singleton ds c ih =>
    obtain ⟨hds, hc⟩ := List.forall_mem_append.1 h
    obtain ⟨d, hd⟩ := List.forall_mem_singleton.1 hc
    rw [digitsValue_concat hd]
    exact .snoc (ih hds) hd

theorem digitsOf_iff {n : Nat} {ds : List Char} :
    DigitsOf n ds ↔ Digits ds ∧ digitsValue ds = n :=
  ⟨DigitsOf.digits, fun ⟨h, hn⟩ => hn ▸ h.digitsOf⟩

/-- The integer that digits stand for, with their sign. -/
def signedValue (negative : Bool) (ds : List Char) : Int :=
  if negative then -(digitsValue ds : Int) else digitsValue ds

theorem integerText_iff {n : Int} {text : List Char} : IntegerText n text ↔
    ∃ negative sign ds, SignText negative sign ∧ Digits ds ∧ ds ≠ [] ∧ text = sign ++ ds ∧
      signedValue negative ds = n := by
  constructor
  · rintro ⟨hsign, hds, hne⟩
    obtain ⟨hdigits, hvalue⟩ := digitsOf_iff.1 hds
    exact ⟨_, _, _, hsign, hdigits, hne, rfl, by rw [signedValue, hvalue]⟩
  · rintro ⟨negative, sign, ds, hsign, hds, hne, rfl, rfl⟩
    exact .signed hsign hds.digitsOf hne

/-! ## Numerals -/

theorem exponent?_eq_some_iff {cs : List Char} {e : Int} :
    exponent? cs = some e ↔ ExponentText e cs := by
  constructor
  · intro h
    cases cs with
    | nil =>
      cases h
      exact .none
    | cons mark cs =>
      obtain ⟨negative, sign, s, hsign, rfl, htakeSign⟩ := takeSign_cases cs
      obtain ⟨ds, s, hds, -, rfl, htakeDigits⟩ := takeDigits_cases s
      simp only [exponent?, htakeSign, htakeDigits] at h
      split at h
      · rename_i hcond
        simp only [Bool.and_eq_true, Bool.or_eq_true, decide_eq_true_eq, Bool.not_eq_true',
          List.isEmpty_eq_false_iff, List.isEmpty_iff] at hcond
        obtain ⟨⟨hmark, hne⟩, rfl⟩ := hcond
        cases h
        rw [List.append_nil]
        exact .mark hmark (.signed hsign hds.digitsOf hne)
      · cases h
  · intro h
    cases h with
    | none => rfl
    | @mark mark e text hmark hinteger =>
      obtain ⟨negative, sign, ds, hsign, hds, hne, rfl, rfl⟩ := integerText_iff.1 hinteger
      have hsplit : takeSign (sign ++ ds) = (negative, ds) := by
        refine takeSign_append hsign ?_
        rw [← List.append_nil ds]
        exact .of_digits hds [] fun h => (hne h).elim
      have hcond : ((decide (mark = 'e') || decide (mark = 'E')) && !ds.isEmpty &&
          ([] : List Char).isEmpty) = true := by
        simp [hmark, hne]
      simp only [exponent?, hsplit, takeDigits_self hds, if_pos hcond]
      rfl

/-- An exponent begins with its mark. -/
theorem ExponentText.eq_nil_or_mark {e : Int} {cs : List Char} (h : ExponentText e cs) :
    cs = [] ∨ ∃ mark rest, cs = mark :: rest ∧ (mark = 'e' ∨ mark = 'E') := by
  cases h with
  | none => exact .inl rfl
  | mark hmark => exact .inr ⟨_, _, rfl, hmark⟩

theorem ExponentText.noDigit {e : Int} {cs : List Char} (h : ExponentText e cs) : NoDigit cs := by
  rcases h.eq_nil_or_mark with rfl | ⟨mark, rest, rfl, hmark⟩
  · exact fun c hc => nomatch hc
  · intro c hc
    cases hc
    rcases hmark with rfl | rfl <;> decide

theorem literal_of_ofChars? {cs : List Char} {n : Numeral} (h : Numeral.ofChars? cs = some n) :
    Literal n cs := by
  obtain ⟨negative, sign, s, hsign, rfl, htakeSign⟩ := takeSign_cases cs
  obtain ⟨whole, s, hwhole, -, rfl, htakeWhole⟩ := takeDigits_cases s
  simp only [Numeral.ofChars?, htakeSign, htakeWhole] at h
  split at h
  · split at h
    · cases h
    · rename_i hne
      cases h
      rw [List.append_nil]
      exact .integer hsign hwhole fun hnil => hne (List.isEmpty_iff.2 hnil)
  · rename_i cs
    obtain ⟨fraction, s, hfraction, -, rfl, htakeFraction⟩ := takeDigits_cases cs
    simp only [htakeFraction] at h
    split at h
    · cases h
    · rename_i hne
      obtain ⟨e, he, rfl⟩ := Option.map_eq_some_iff.1 h
      rw [← List.append_assoc]
      refine .point hsign hwhole hfraction ?_ (exponent?_eq_some_iff.1 he)
      by_cases hnil : whole = []
      · exact .inr fun hnil' => hne (by rw [hnil, hnil']; rfl)
      · exact .inl hnil
  · rename_i hnil _
    split at h
    · cases h
    · rename_i hne
      obtain ⟨e, he, rfl⟩ := Option.map_eq_some_iff.1 h
      rw [← List.append_assoc]
      exact .exponent hsign hwhole (fun hnil => hne (List.isEmpty_iff.2 hnil))
        (exponent?_eq_some_iff.1 he) hnil

theorem ofChars?_of_literal {cs : List Char} {n : Numeral} (h : Literal n cs) :
    Numeral.ofChars? cs = some n := by
  cases h with
  | @integer negative sign ds hsign hds hne =>
    have hnoSign : NoSign ds := by
      rw [← List.append_nil ds]
      exact .of_digits hds [] fun hnil => (hne hnil).elim
    simp only [Numeral.ofChars?, takeSign_append hsign hnoSign, takeDigits_self hds]
    exact if_neg fun hnil => hne (List.isEmpty_iff.1 hnil)
  | @point negative sign whole fraction e exponent hsign hwhole hfraction hne he =>
    have hnoSign : NoSign (whole ++ '.' :: (fraction ++ exponent)) :=
      .of_digits hwhole _ fun _ c hc => by cases hc; exact ⟨by decide, by decide⟩
    have hnoDigit : NoDigit ('.' :: (fraction ++ exponent)) := fun c hc => by cases hc; decide
    rw [List.append_assoc]
    simp only [Numeral.ofChars?, takeSign_append hsign hnoSign, takeDigits_append hwhole hnoDigit,
      takeDigits_append hfraction he.noDigit, exponent?_eq_some_iff.2 he]
    refine if_neg fun hnil => ?_
    simp only [Bool.and_eq_true, List.isEmpty_iff] at hnil
    exact hne.elim (fun h => h hnil.1) fun h => h hnil.2
  | @exponent negative sign whole e exponent hsign hwhole hne he hmark =>
    have hnoSign : NoSign (whole ++ exponent) :=
      .of_digits hwhole _ fun hnil => (hne hnil).elim
    rw [List.append_assoc]
    simp only [Numeral.ofChars?, takeSign_append hsign hnoSign, takeDigits_append hwhole he.noDigit]
    split
    · exact (hmark rfl).elim
    · rename_i cs
      -- The mark of an exponent is not the point.
      rcases he.eq_nil_or_mark with heq | ⟨mark, rest, heq, rfl | rfl⟩ <;> cases heq
    · rw [exponent?_eq_some_iff.2 he]
      exact if_neg fun hnil => hne (List.isEmpty_iff.1 hnil)

/-- Exactly the literals of the grammar are numerals. -/
theorem ofChars?_eq_some_iff {cs : List Char} {n : Numeral} :
    Numeral.ofChars? cs = some n ↔ Literal n cs :=
  ⟨literal_of_ofChars?, ofChars?_of_literal⟩

/-! ## Atoms -/

/-- The text without a point that it begins with. -/
def dropPoint : List Char → List Char
  | '.' :: cs => cs
  | cs => cs

theorem dropPoint_of_ne {c : Char} (h : c ≠ '.') (s : List Char) : dropPoint (c :: s) = c :: s := by
  unfold dropPoint
  split
  · rename_i heq
    cases heq
    exact (h rfl).elim
  · rfl

theorem looksNumeric_eq (cs : List Char) :
    looksNumeric cs = (dropPoint (takeSign cs).2).head?.any isDigit := by
  unfold looksNumeric takeSign
  split
  · rfl
  · rfl
  · rename_i hplus hminus
    split
    · exact (hminus _ rfl).elim
    · exact (hplus _ rfl).elim
    · rfl

theorem looksNumeric_digits {negative : Bool} {sign ds : List Char} (hsign : SignText negative sign)
    (h : Digits ds) (hne : ds ≠ []) (s : List Char) :
    looksNumeric (sign ++ (ds ++ s)) = true ∧ looksNumeric (sign ++ '.' :: (ds ++ s)) = true := by
  cases ds with
  | nil => exact (hne rfl).elim
  | cons d ds =>
    have hd : isDigit d = true := digits_iff.1 h d List.mem_cons_self
    have hpoint : NoSign ('.' :: d :: (ds ++ s)) := fun c hc => by
      cases hc
      exact ⟨by decide, by decide⟩
    rw [looksNumeric_eq, looksNumeric_eq, List.cons_append,
      takeSign_append hsign (.cons_of_isDigit hd (ds ++ s)), takeSign_append hsign hpoint]
    refine ⟨?_, hd⟩
    show (dropPoint (d :: (ds ++ s))).head?.any isDigit = true
    rw [dropPoint_of_ne (isDigit_ne hd (by decide))]
    exact hd

/-- A literal begins with a digit, after its sign and maybe a point. -/
theorem Literal.looksNumeric {cs : List Char} {n : Numeral} (h : Literal n cs) :
    looksNumeric cs = true := by
  cases h with
  | @integer negative sign ds hsign hds hne =>
    rw [← List.append_nil ds]
    exact (looksNumeric_digits hsign hds hne []).1
  | @point negative sign whole fraction e exponent hsign hwhole hfraction hne =>
    rw [List.append_assoc]
    by_cases hnil : whole = []
    · subst hnil
      exact (looksNumeric_digits hsign hfraction (hne.resolve_left fun h => h rfl) exponent).2
    · exact (looksNumeric_digits hsign hwhole hnil _).1
  | @exponent negative sign whole e exponent hsign hwhole hne =>
    rw [List.append_assoc]
    exact (looksNumeric_digits hsign hwhole hne exponent).1

/-- Exactly what begins like a number looks numeric. -/
theorem looksNumeric_iff {cs : List Char} : looksNumeric cs = true ↔ NumericText cs := by
  constructor
  · intro h
    obtain ⟨negative, sign, s, hsign, rfl, htake⟩ := takeSign_cases cs
    rw [looksNumeric_eq, htake] at h
    cases s with
    | nil => cases h
    | cons c s =>
      by_cases hpoint : c = '.'
      · subst hpoint
        cases s with
        | nil => cases h
        | cons c s => exact .point hsign (digitChar_of_isDigit h)
      · rw [dropPoint_of_ne hpoint] at h
        exact .digit hsign (digitChar_of_isDigit h)
  · intro h
    cases h with
    | digit hsign hd =>
      exact (looksNumeric_digits hsign (List.forall_mem_singleton.2 ⟨_, hd⟩)
        (List.cons_ne_nil _ _) _).1
    | point hsign hd =>
      exact (looksNumeric_digits hsign (List.forall_mem_singleton.2 ⟨_, hd⟩)
        (List.cons_ne_nil _ _) _).2

theorem looksNumeric_eq_false_iff {cs : List Char} : looksNumeric cs = false ↔ ¬ NumericText cs := by
  rw [← looksNumeric_iff, Bool.not_eq_true]

theorem Literal.digits {n : Numeral} {cs : List Char} (h : Literal n cs) :
    Digits (n.whole ++ n.fraction) := by
  cases h with
  | integer _ hds => exact List.forall_mem_append.2 ⟨hds, nofun⟩
  | point _ hwhole hfraction => exact List.forall_mem_append.2 ⟨hwhole, hfraction⟩
  | exponent _ hwhole => exact List.forall_mem_append.2 ⟨hwhole, nofun⟩

theorem Literal.integerText {n : Numeral} {cs : List Char} (h : Literal n cs)
    (hn : n.isInteger = true) : IntegerText n.toInt cs := by
  cases h with
  | integer hsign hds hne => exact .signed hsign hds.digitsOf hne
  | point => cases hn
  | exponent => cases hn

theorem IntegerText.exists_literal {i : Int} {cs : List Char} (h : IntegerText i cs) :
    ∃ n, Literal n cs ∧ n.isInteger = true ∧ n.toInt = i := by
  obtain ⟨negative, sign, ds, hsign, hds, hne, rfl, rfl⟩ := integerText_iff.1 h
  exact ⟨_, .integer hsign hds hne, rfl, rfl⟩

theorem Literal.atom_float {n : Numeral} {cs : List Char} (h : Literal n cs)
    (hn : n.isInteger = false) : Atom cs (.float n.toFloat) := by
  obtain ⟨negative, whole, fraction, e, integer⟩ := n
  obtain rfl : integer = false := hn
  exact .float h h.digits.digitsOf

theorem atom_of_readAtom {text : List Char} {v : Value} (h : readAtom text = .ok v) :
    Atom text v := by
  unfold readAtom at h
  cases hn : Numeral.ofChars? text with
  | none =>
    simp only [hn] at h
    split at h
    · cases h
    · rename_i hnumeric
      split at h
      · cases h
      · rename_i hdot
        cases h
        exact .symbol (looksNumeric_eq_false_iff.1 (Bool.eq_false_iff.2 hnumeric)) hdot
  | some n =>
    simp only [hn, Numeral.toValue] at h
    have hliteral := ofChars?_eq_some_iff.1 hn
    split at h
    · rename_i hinteger
      split at h
      · rename_i m hm
        cases h
        obtain ⟨hlow, hhigh, rfl⟩ := Number.int64?_eq_some_iff.1 hm
        exact .integer (hliteral.integerText hinteger) (by omega) (by omega)
      · cases h
    · rename_i hfloat
      cases h
      exact hliteral.atom_float (Bool.eq_false_iff.2 hfloat)

theorem readAtom_of_atom {text : List Char} {v : Value} (h : Atom text v) :
    readAtom text = .ok v := by
  unfold readAtom
  cases h with
  | integer hinteger hlow hhigh =>
    obtain ⟨n, hliteral, hn, rfl⟩ := hinteger.exists_literal
    have hvalue : Number.int64? n.toInt = some (.ofInt n.toInt) :=
      Number.int64?_eq_some_iff.2 ⟨by omega, by omega, rfl⟩
    rw [ofChars?_eq_some_iff.2 hliteral]
    simp only [Numeral.toValue, if_pos hn, hvalue]
  | float hliteral hdigits =>
    obtain ⟨-, rfl⟩ := digitsOf_iff.1 hdigits
    rw [ofChars?_eq_some_iff.2 hliteral]
    rfl
  | symbol hnumeric hdot =>
    have hnone : Numeral.ofChars? text = none := by
      cases hn : Numeral.ofChars? text with
      | none => rfl
      | some n =>
        exact (hnumeric (looksNumeric_iff.1 (ofChars?_eq_some_iff.1 hn).looksNumeric)).elim
    simp only [hnone, looksNumeric_eq_false_iff.2 hnumeric, if_neg hdot]
    rfl

theorem readAtom_eq_ok_iff {text : List Char} {v : Value} :
    readAtom text = .ok v ↔ Atom text v :=
  ⟨atom_of_readAtom, readAtom_of_atom⟩

end DynLisp.Reader
