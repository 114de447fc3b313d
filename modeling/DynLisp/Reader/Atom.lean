import DynLisp.Number.Nearest
import DynLisp.Number.Range
import DynLisp.Reader.Error
import DynLisp.Value.Basic

/-!
# Atoms

An atom is an integer, a float or a symbol. An atom that begins like a number has to be one, and a
single dot is none. The grammar of numbers is in `Numeral.ofChars?`: digits with an optional sign,
and for floats a point, an exponent, or both.
-/

namespace DynLisp.Reader

/-- A decimal numeral: its sign, the digits before and after the point, and the exponent. An
integer has neither point nor exponent. -/
structure Numeral where
  negative : Bool
  whole : List Char
  fraction : List Char
  exponent : Int
  isInteger : Bool
deriving DecidableEq

/-- Takes a sign off, if there is one; whether it is a minus sign. -/
def takeSign : List Char → Bool × List Char
  | '-' :: cs => (true, cs)
  | '+' :: cs => (false, cs)
  | cs => (false, cs)

/-- Takes off the digits that a text begins with. -/
def takeDigits (cs : List Char) : List Char × List Char :=
  cs.span isDigit

/-- The number that digits stand for. -/
def digitsValue (ds : List Char) : Nat :=
  Nat.ofDigitChars 10 ds 0

/-- The exponent that a text is, in full: nothing, or the mark, an optional sign and digits. -/
def exponent? : List Char → Option Int
  | [] => some 0
  | mark :: cs =>
    let (negative, cs) := takeSign cs
    let (digits, cs) := takeDigits cs
    if (mark = 'e' || mark = 'E') && !digits.isEmpty && cs.isEmpty then
      some (if negative then -(digitsValue digits : Int) else digitsValue digits)
    else none

namespace Numeral

/-- The numeral that a text is, in full. The digits on one side of the point may be missing. -/
def ofChars? (cs : List Char) : Option Numeral :=
  let (negative, cs) := takeSign cs
  let (whole, cs) := takeDigits cs
  match cs with
  | [] => if whole.isEmpty then none else some ⟨negative, whole, [], 0, true⟩
  | '.' :: cs =>
    let (fraction, cs) := takeDigits cs
    if whole.isEmpty && fraction.isEmpty then none
    else (exponent? cs).map fun e => ⟨negative, whole, fraction, e, false⟩
  | cs =>
    if whole.isEmpty then none
    else (exponent? cs).map fun e => ⟨negative, whole, [], e, false⟩

/-- The number of an integer numeral. -/
def toInt (n : Numeral) : Int :=
  if n.negative then -(digitsValue n.whole : Int) else digitsValue n.whole

/-- The float nearest to a numeral. -/
def toFloat (n : Numeral) : Float :=
  let x := Number.nearest (digitsValue (n.whole ++ n.fraction)) (n.exponent - n.fraction.length)
  if n.negative then -x else x

/-- The value of a numeral; integers have to fit in 64 bits. -/
def toValue (n : Numeral) : Except Cause Value :=
  if n.isInteger then
    match Number.int64? n.toInt with
    | some m => .ok (.int m)
    | none => .error .integerRange
  else .ok (.float n.toFloat)

end Numeral

/-- Whether an atom begins like a number: with a digit after an optional sign and an optional
point. -/
def looksNumeric (cs : List Char) : Bool :=
  let unsigned := match cs with
    | '+' :: cs | '-' :: cs => cs
    | cs => cs
  let digits := match unsigned with
    | '.' :: cs => cs
    | cs => cs
  digits.head?.any isDigit

/-- The value that an atom stands for. -/
def readAtom (cs : List Char) : Except Cause Value :=
  match Numeral.ofChars? cs with
  | some n => n.toValue
  | none =>
    if looksNumeric cs then .error .badNumber
    else if cs = ['.'] then .error .unexpected
    else .ok (.symbol (String.ofList cs))

end DynLisp.Reader
