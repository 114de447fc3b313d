import DynLisp.Reader.Char

/-!
# Lexemes

Text is cut into lexemes, one character at a time: a parenthesis or a quote mark is a lexeme by
itself, an atom is a longest run of characters that are no delimiters, and a delimiter that means
nothing is a stray lexeme. Blanks and comments are left out. Every lexeme knows the text from its
first character on, and the text behind it.
-/

namespace DynLisp.Reader

/-- What a lexeme is. -/
inductive Token where
  | openParen
  | closeParen
  | quoteMark
  | stray
  | atom (text : List Char)
deriving DecidableEq

/-- A token with the text from it on (`start`) and the text after it (`stop`). -/
structure Lexeme where
  token : Token
  start : List Char
  stop : List Char
deriving DecidableEq

/-- Where the cutting of a text stands: between lexemes, in a comment, or in an atom, with the text
from the atom on and those of its characters that were read, the last one first. -/
inductive Mode where
  | between
  | comment
  | atom (start read : List Char)
deriving DecidableEq

namespace Mode

/-- What begins with a character that stands between lexemes. -/
def begin (comments : Bool) (c : Char) (here after : List Char) : List Lexeme × Mode :=
  if isBlank c then ([], between)
  else if c = '(' then ([⟨.openParen, here, after⟩], between)
  else if c = ')' then ([⟨.closeParen, here, after⟩], between)
  else if c = '\x27' then ([⟨.quoteMark, here, after⟩], between)
  else if c = ';' && comments then ([], comment)
  else if isDelimiter c then ([⟨.stray, here, after⟩], between)
  else ([], atom here [c])

/-- The lexeme that is complete when no more of it follows. -/
def finish (stop : List Char) : Mode → List Lexeme
  | atom start read => [⟨.atom read.reverse, start, stop⟩]
  | _ => []

/-- The lexemes that one character completes. `here` is the text from the character on, `after` the
text behind it. A comment ends at the end of its line. -/
def next (comments : Bool) (m : Mode) (c : Char) (here after : List Char) : List Lexeme × Mode :=
  match m with
  | between => begin comments c here after
  | comment => ([], if c = '\n' then between else comment)
  | atom start read =>
    if isDelimiter c then
      let (lexemes, m') := begin comments c here after
      (finish here (atom start read) ++ lexemes, m')
    else ([], atom start (c :: read))

end Mode

/-- The lexemes found before, the last one first, followed by those of a text. -/
def lexemesOnto (comments : Bool) (found : List Lexeme) : Mode → List Char → List Lexeme
  | m, [] => found.reverse ++ m.finish []
  | m, c :: cs =>
    let (lexemes, m') := m.next comments c (c :: cs) cs
    lexemesOnto comments (lexemes.reverse ++ found) m' cs

/-- The lexemes of a text whose cutting stands at `m`. -/
def lexemesFrom (comments : Bool) (m : Mode) (cs : List Char) : List Lexeme :=
  lexemesOnto comments [] m cs

/-- The lexemes of a text. Comments are only left out if asked for; otherwise a semicolon is
stray. -/
def lexemes (comments : Bool) (cs : List Char) : List Lexeme :=
  lexemesFrom comments .between cs

/-! ## Character by character -/

theorem lexemesOnto_eq (comments : Bool) (found : List Lexeme) (m : Mode) (cs : List Char) :
    lexemesOnto comments found m cs = found.reverse ++ lexemesFrom comments m cs := by
  unfold lexemesFrom
  induction cs generalizing found m with
  | nil => simp [lexemesOnto]
  | cons c cs ih =>
    simp only [lexemesOnto]
    rw [ih, ih (_ ++ [])]
    simp

@[simp] theorem lexemesFrom_nil (comments : Bool) (m : Mode) :
    lexemesFrom comments m [] = m.finish [] := rfl

/-- The lexemes that the first character completes come first. -/
theorem lexemesFrom_cons (comments : Bool) (m : Mode) (c : Char) (cs : List Char) :
    lexemesFrom comments m (c :: cs) =
      (m.next comments c (c :: cs) cs).1 ++
        lexemesFrom comments (m.next comments c (c :: cs) cs).2 cs := by
  have h : lexemesFrom comments m (c :: cs) =
      lexemesOnto comments ((m.next comments c (c :: cs) cs).1.reverse ++ [])
        (m.next comments c (c :: cs) cs).2 cs := rfl
  rw [h, lexemesOnto_eq]
  simp

end DynLisp.Reader
