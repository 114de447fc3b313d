import DynLisp.Reader.Char

/-!
# Why text cannot be read

A `Fault` is a cause and the text that is left where it was noticed. Shown to the user it becomes a
`ReadError`: a kind, a text with the position of the fault, and a piece of the input around it.
-/

namespace DynLisp.Reader

/-- The kinds of errors that a user can tell apart. -/
inductive ErrorKind where
  | invalidSyntax
  | incomplete
  | tooDeeplyNested
  | trailingContent
deriving DecidableEq

/-- An error in the form in which it is shown. -/
structure ReadError where
  kind : ErrorKind
  text : String
  context : Option String
deriving DecidableEq

/-- Why reading stopped. -/
inductive Cause where
  /-- A datum would be nested deeper than allowed. -/
  | tooDeep (maxDepth : Nat)
  | unexpectedEnd
  | integerRange
  | badNumber
  /-- A token that cannot stand here. -/
  | unexpected
  /-- A character that cannot stand anywhere. -/
  | invalid
  /-- More text after the one datum asked for. -/
  | trailing
deriving DecidableEq

/-- Why reading stopped, and the text from there on. -/
structure Fault where
  cause : Cause
  rest : List Char
deriving DecidableEq

/-- How many characters before a fault its context shows. -/
def contextBefore : Nat := 20

/-- How many characters the context of a fault shows. -/
def contextLength : Nat := 100

/-- Line ends are not shown as such. -/
def showLineEnd (c : Char) : List Char :=
  if c = '\n' then ['\\', 'n'] else if c = '\r' then [] else [c]

/-- The mark for input that is not shown. -/
def ellipsis (cut : Bool) : List Char :=
  if cut then "[...]".toList else []

/-- The piece of the input around a position. The position is one in bytes, but is taken to count
characters where the piece is cut out. -/
def contextAt (input : List Char) (position : Nat) : String :=
  let start := position - contextBefore
  let piece := (input.drop start).take contextLength
  let shown := ellipsis (0 < start) ++ piece ++
    ellipsis (start + byteCount piece < byteCount input)
  String.ofList (shown.flatMap showLineEnd)

namespace ReadError

/-- An error at a position of the input. -/
def atPosition (kind : ErrorKind) (text : String) (input : List Char) (position : Nat) :
    ReadError where
  kind
  text
  context := some (contextAt input position)

/-- The error for input without any datum. -/
def emptyInput : ReadError where
  kind := .invalidSyntax
  text := "Empty input"
  context := none

/-- The text with the context. -/
def message (e : ReadError) : String :=
  e.text ++ (e.context.map fun context => "\nContext: " ++ context).getD ""

end ReadError

namespace Cause

/-- The kind of error that a cause is. -/
def kind : Cause → ErrorKind
  | tooDeep _ => .tooDeeplyNested
  | unexpectedEnd => .incomplete
  | trailing => .trailingContent
  | integerRange | badNumber | unexpected | invalid => .invalidSyntax

end Cause

namespace Fault

/-- The first characters of the text that is left. -/
def near (f : Fault) : String :=
  String.ofList (f.rest.take 10)

/-- The token that the text that is left begins with. -/
def token (f : Fault) : String :=
  String.ofList (f.rest.takeWhile fun c => !isDelimiter c)

/-- How many bytes of the input come before the fault. -/
def position (f : Fault) (input : List Char) : Nat :=
  byteCount input - byteCount f.rest

/-- What a fault at a position is told as. -/
def text (f : Fault) (position : Nat) : String :=
  let place := " at position " ++ toString position
  match f.cause with
  | .tooDeep maxDepth => "Expression too deeply nested (max depth: " ++ toString maxDepth ++ ")"
  | .unexpectedEnd => "Unexpected end of input"
  | .integerRange => "Integer literal out of range" ++ place
  | .badNumber => "Invalid number '" ++ f.token ++ "'" ++ place
  | .unexpected => "Unexpected '" ++ f.near ++ "'" ++ place
  | .invalid => "Invalid syntax near '" ++ f.near ++ "'"
  | .trailing => "Unexpected remaining input: '" ++ f.near ++ "'"

/-- A fault in the form in which it is shown. -/
def toError (f : Fault) (input : List Char) : ReadError :=
  let position := f.position input
  .atPosition f.cause.kind (f.text position) input position

end Fault

end DynLisp.Reader
