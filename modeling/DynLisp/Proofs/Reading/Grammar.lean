import Mathlib.Algebra.Group.Int.Defs
import DynLisp.Reader.Datum

/-!
# The grammar of data

What a text has to look like to be read, and the value that it is read as. Nothing here is said
with the functions that read: classes of characters, numbers and values are written out.
`Blank comments s t` and `Datum config depth s t v` say what `s` begins with, and that `t` is what
is left of it:

* `BlankChar`, `DelimiterChar`, `DigitChar`: the classes of characters;
* `DigitsOf`, `IntegerText`, `Literal`: digits with the number that they stand for, and numerals;
* `Atom`: numerals and symbols, with their values;
* `Datum`, `Items`: a datum at a depth, and data one after the other;
* `Derives`: a text that is one datum between blanks.

The functions for classes of characters agree with the classes (`isBlank_iff`, `isDelimiter_iff`,
`digits_iff`).
-/

namespace DynLisp.Reader

/-! ## Characters -/

/-- Spaces, tabulators and the two line end characters. -/
def BlankChar (c : Char) : Prop :=
  c = ' ' ∨ c = '\t' ∨ c = '\r' ∨ c = '\n'

/-- The characters with the Unicode property White_Space, by their code points. -/
def WhiteSpaceChar (c : Char) : Prop :=
  (0x09 ≤ c.toNat ∧ c.toNat ≤ 0x0d) ∨ c.toNat ∈ [0x20, 0x85, 0xa0, 0x1680] ∨
    (0x2000 ≤ c.toNat ∧ c.toNat ≤ 0x200a) ∨ c.toNat ∈ [0x2028, 0x2029, 0x202f, 0x205f, 0x3000]

/-- What cannot stand in an atom. -/
inductive DelimiterChar : Char → Prop where
  | whiteSpace {c} : WhiteSpaceChar c → DelimiterChar c
  | openParen : DelimiterChar '('
  | closeParen : DelimiterChar ')'
  | quoteMark : DelimiterChar '\x27'
  | semicolon : DelimiterChar ';'
  | stringMark : DelimiterChar '\x22'

/-- The text does not go on with a character that could belong to an atom before it. -/
def Delimited (s : List Char) : Prop :=
  ∀ c ∈ s.head?, DelimiterChar c

/-- The character is the decimal digit for this number. -/
def DigitChar (d : Nat) (c : Char) : Prop :=
  d < 10 ∧ c.toNat = '0'.toNat + d

/-- Blanks and, where there are any, comments, each of which goes on to the end of its line. -/
inductive Blank (comments : Bool) : List Char → List Char → Prop where
  | done (s) : Blank comments s s
  | char {c s t} : BlankChar c → Blank comments s t → Blank comments (c :: s) t
  | comment {body s t} : comments = true → '\n' ∉ body → (s = [] ∨ s.head? = some '\n') →
      Blank comments s t → Blank comments (';' :: (body ++ s)) t

/-! ## Numerals -/

/-- An optional sign; whether it is a minus sign. -/
inductive SignText : Bool → List Char → Prop where
  | none : SignText false []
  | plus : SignText false ['+']
  | minus : SignText true ['-']

def Digits (ds : List Char) : Prop :=
  ∀ c ∈ ds, ∃ d, DigitChar d c

/-- Digits, and the number that they stand for. -/
inductive DigitsOf : Nat → List Char → Prop where
  | nil : DigitsOf 0 []
  | snoc {n d ds c} : DigitsOf n ds → DigitChar d c → DigitsOf (10 * n + d) (ds ++ [c])

/-- Digits with an optional sign, and the integer that they stand for. -/
inductive IntegerText : Int → List Char → Prop where
  | signed {negative sign n ds} : SignText negative sign → DigitsOf n ds → ds ≠ [] →
      IntegerText (if negative then -n else n) (sign ++ ds)

/-- An exponent, which may be missing. -/
inductive ExponentText : Int → List Char → Prop where
  | none : ExponentText 0 []
  | mark {mark e text} : mark = 'e' ∨ mark = 'E' → IntegerText e text →
      ExponentText e (mark :: text)

/-- The texts of numerals. An integer has neither point nor exponent; a float has one of them or
both, and digits before the exponent. -/
inductive Literal : Numeral → List Char → Prop where
  | integer {negative sign ds} : SignText negative sign → Digits ds → ds ≠ [] →
      Literal ⟨negative, ds, [], 0, true⟩ (sign ++ ds)
  | point {negative sign whole fraction e exponent} : SignText negative sign → Digits whole →
      Digits fraction → (whole ≠ [] ∨ fraction ≠ []) → ExponentText e exponent →
        Literal ⟨negative, whole, fraction, e, false⟩
          (sign ++ whole ++ '.' :: (fraction ++ exponent))
  | exponent {negative sign whole e exponent} : SignText negative sign → Digits whole →
      whole ≠ [] → ExponentText e exponent → exponent ≠ [] →
        Literal ⟨negative, whole, [], e, false⟩ (sign ++ whole ++ exponent)

/-- The text begins like a number: with a digit after an optional sign and an optional point. -/
inductive NumericText : List Char → Prop where
  | digit {negative sign d c s} : SignText negative sign → DigitChar d c →
      NumericText (sign ++ c :: s)
  | point {negative sign d c s} : SignText negative sign → DigitChar d c →
      NumericText (sign ++ '.' :: c :: s)

/-! ## Atoms -/

/-- The texts of atoms, and what they stand for: an integer of 64 bits, the float that is nearest to
all digits of a numeral with the exponent less the places behind the point, or a symbol. -/
inductive Atom : List Char → Value → Prop where
  | integer {n text} : IntegerText n text → -2 ^ 63 ≤ n → n < 2 ^ 63 →
      Atom text (.int (.ofInt n))
  | float {negative whole fraction e m text} : Literal ⟨negative, whole, fraction, e, false⟩ text →
      DigitsOf m (whole ++ fraction) →
        Atom text (.float (if negative then -Number.nearest m (e - fraction.length)
          else Number.nearest m (e - fraction.length)))
  | symbol {text} : ¬ NumericText text → text ≠ ['.'] → Atom text (.symbol (String.ofList text))

/-! ## Data -/

mutual

/-- The text begins with a datum at this depth. -/
inductive Datum (config : Config) : Nat → List Char → List Char → Value → Prop where
  | atom {depth text t v} : depth < config.maxDepth → text ≠ [] →
      (∀ c ∈ text, ¬ DelimiterChar c) → Delimited t → Atom text v →
        Datum config depth (text ++ t) t v
  | quote {depth s t u v} : depth < config.maxDepth → Blank config.comments s t →
      Datum config (depth + 1) t u v →
        Datum config depth ('\x27' :: s) u (.pair (.symbol "quote") (.pair v .nil))
  | list {depth s t u vs} : depth < config.maxDepth → Blank config.comments s t →
      Items config (depth + 1) t (')' :: u) vs →
        Datum config depth ('(' :: s) u (vs.foldr .pair .nil)
  | dotted {depth s t u w x y vs v} : depth < config.maxDepth → Blank config.comments s t →
      Items config (depth + 1) t ('.' :: u) vs → vs ≠ [] → Delimited u → Blank config.comments u w →
        Datum config (depth + 1) w x v → Blank config.comments x (')' :: y) →
          Datum config depth ('(' :: s) y (vs.foldr .pair v)

/-- The text begins with data at this depth, with blanks after each. -/
inductive Items (config : Config) : Nat → List Char → List Char → List Value → Prop where
  | nil {depth s} : Items config depth s s []
  | cons {depth s t u w v vs} : Datum config depth s t v → Blank config.comments t u →
      Items config depth u w vs → Items config depth s w (v :: vs)

end

/-- The text is one datum between blanks. -/
def Derives (config : Config) (text : List Char) (v : Value) : Prop :=
  ∃ s t, Blank config.comments text s ∧ Datum config 0 s t v ∧ Blank config.comments t []

/-! ## The functions for classes of characters -/

theorem isBlank_iff {c : Char} : isBlank c = true ↔ BlankChar c := by
  simp only [isBlank, BlankChar, Bool.or_eq_true, decide_eq_true_eq, or_assoc]

theorem isWhiteSpace_iff {c : Char} : isWhiteSpace c = true ↔ WhiteSpaceChar c := by
  simp only [isWhiteSpace, whiteSpaceRanges, List.any_cons, List.any_nil, Bool.or_false,
    Bool.or_eq_true, Bool.and_eq_true, decide_eq_true_eq, WhiteSpaceChar, List.mem_cons,
    List.not_mem_nil, or_false]
  omega

theorem isDelimiter_iff {c : Char} : isDelimiter c = true ↔ DelimiterChar c := by
  simp only [isDelimiter, Bool.or_eq_true, decide_eq_true_eq, isWhiteSpace_iff]
  constructor
  · rintro (((((h | rfl) | rfl) | rfl) | rfl) | rfl)
    · exact .whiteSpace h
    · exact .openParen
    · exact .closeParen
    · exact .quoteMark
    · exact .semicolon
    · exact .stringMark
  · intro h
    cases h with
    | whiteSpace h => simp [h]
    | _ => simp

theorem isDelimiter_eq_false_iff {c : Char} : isDelimiter c = false ↔ ¬ DelimiterChar c := by
  rw [← isDelimiter_iff, Bool.not_eq_true]

theorem forall_not_delimiter_iff {text : List Char} :
    (∀ c ∈ text, isDelimiter c = false) ↔ ∀ c ∈ text, ¬ DelimiterChar c :=
  forall₂_congr fun _ _ => isDelimiter_eq_false_iff

theorem isDigit_iff {c : Char} : isDigit c = true ↔ 48 ≤ c.toNat ∧ c.toNat ≤ 57 := by
  unfold isDigit
  rw [Bool.and_eq_true, decide_eq_true_eq, decide_eq_true_eq, Char.le_def, Char.le_def,
    UInt32.le_iff_toNat_le, UInt32.le_iff_toNat_le]
  exact .rfl

theorem DigitChar.isDigit {d : Nat} {c : Char} (h : DigitChar d c) : isDigit c = true := by
  obtain ⟨hlt, hc⟩ := h
  have hzero : '0'.toNat = 48 := rfl
  exact isDigit_iff.2 (by omega)

theorem digitChar_of_isDigit {c : Char} (h : isDigit c = true) :
    DigitChar (c.toNat - '0'.toNat) c := by
  obtain ⟨hlow, hhigh⟩ := isDigit_iff.1 h
  have hzero : '0'.toNat = 48 := rfl
  constructor <;> omega

theorem digits_iff {ds : List Char} : Digits ds ↔ ∀ c ∈ ds, isDigit c = true :=
  forall₂_congr fun _ _ => ⟨fun ⟨_, h⟩ => h.isDigit, fun h => ⟨_, digitChar_of_isDigit h⟩⟩

/-! ## Runs of characters -/

/-- A longest run of characters of a class is not followed by one of them. -/
theorem head?_dropWhile_false (p : Char → Bool) (s : List Char) :
    ∀ c ∈ (s.dropWhile p).head?, p c = false := by
  intro c hc
  have h := List.head?_dropWhile_not p s
  rw [hc] at h
  exact h

end DynLisp.Reader
