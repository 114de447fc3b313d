/-!
# Classes of characters

What separates tokens is a wider class (`isDelimiter`, with all of Unicode's white space) than what
may stand between them unnoticed (`isBlank`).
-/

namespace DynLisp.Reader

/-- The characters with the Unicode property White_Space, as ranges of code points. -/
def whiteSpaceRanges : List (Nat × Nat) :=
  [(0x09, 0x0d), (0x20, 0x20), (0x85, 0x85), (0xa0, 0xa0), (0x1680, 0x1680), (0x2000, 0x200a),
    (0x2028, 0x2029), (0x202f, 0x202f), (0x205f, 0x205f), (0x3000, 0x3000)]

/-- The Unicode property White_Space. -/
def isWhiteSpace (c : Char) : Bool :=
  whiteSpaceRanges.any fun (first, last) => first ≤ c.toNat && c.toNat ≤ last

/-- What may stand between tokens: blank, tabulator and the two line end characters. -/
def isBlank (c : Char) : Bool :=
  c = ' ' || c = '\t' || c = '\r' || c = '\n'

/-- What ends an atom. -/
def isDelimiter (c : Char) : Bool :=
  isWhiteSpace c || c = '(' || c = ')' || c = '\x27' || c = ';' || c = '\x22'

/-- The digits of decimal numbers, in ASCII only. -/
def isDigit (c : Char) : Bool :=
  '0' ≤ c && c ≤ '9'

theorem isWhiteSpace_of_isBlank {c : Char} (h : isBlank c) : isWhiteSpace c := by
  simp only [isBlank, Bool.or_eq_true, decide_eq_true_eq] at h
  rcases h with ((rfl | rfl) | rfl) | rfl <;> decide

theorem isDelimiter_of_isBlank {c : Char} (h : isBlank c) : isDelimiter c := by
  simp [isDelimiter, isWhiteSpace_of_isBlank h]

/-- The number of bytes of a text in UTF-8. -/
def byteCount (cs : List Char) : Nat :=
  cs.foldr (fun c n => c.utf8Size + n) 0

/-- The text without the white space at both ends. -/
def trim (cs : List Char) : List Char :=
  ((cs.dropWhile isWhiteSpace).reverse.dropWhile isWhiteSpace).reverse

end DynLisp.Reader
