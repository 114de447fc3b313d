import DynLisp.Reader.Atom
import DynLisp.Reader.Lexeme

/-!
# Data

Lexemes are put together one by one. What is read so far is a `Progress`: the data that are
complete, and the forms that are still open around the place where reading stands, the innermost
first. Their number is the depth of the next datum. Reading text is a fold of `Progress.step` over
its lexemes:

* `parseAll` reads all data of a text;
* `parse` reads a text that holds exactly one.
-/

namespace DynLisp.Reader

/-- How text is read. -/
structure Config where
  /-- Whether a semicolon starts a comment. -/
  comments : Bool := true
  /-- A datum has to be nested less deep than this. -/
  maxDepth : Nat := 512
deriving DecidableEq

/-- A form that is still open. The elements of a list are kept with the last one first. -/
inductive Pending where
  | list (elements : List Value)
  /-- A list after its dot: the tail is missing. -/
  | dotted (elements : List Value)
  /-- A list with its tail: only the closing parenthesis is missing. -/
  | ending (elements : List Value) (tail : Value)
  | quoted
deriving DecidableEq

/-- What is read so far; of the data that are complete the last one is first. -/
structure Progress where
  done : List Value := []
  pending : List Pending := []
deriving DecidableEq

/-- The form that a quote mark before a datum stands for. -/
def quoted (v : Value) : Value :=
  .ofList [.symbol "quote", v]

namespace Progress

/-- The depth of the next datum. -/
def depth (p : Progress) : Nat :=
  p.pending.length

/-- Hands a complete datum to the innermost open form, which it may complete in turn. A list that
has its tail takes no more. -/
def complete (done : List Value) : List Pending → Value → Progress
  | [], v => ⟨v :: done, []⟩
  | .list elements :: pending, v => ⟨done, .list (v :: elements) :: pending⟩
  | .dotted elements :: pending, v => ⟨done, .ending elements v :: pending⟩
  | .ending elements tail :: pending, _ => ⟨done, .ending elements tail :: pending⟩
  | .quoted :: pending, v => complete done pending (quoted v)

/-- Opens a form around the next datum. -/
def enter (p : Progress) (form : Pending) : Progress :=
  { p with pending := form :: p.pending }

/-- Reads a lexeme with which a datum has to begin. After a quote mark the depth is checked at
once, before anything that follows is looked at. -/
def datum (maxDepth : Nat) (p : Progress) (l : Lexeme) : Except Fault Progress :=
  if maxDepth ≤ p.depth then .error ⟨.tooDeep maxDepth, l.start⟩
  else
    match l.token with
    | .openParen => .ok (p.enter (.list []))
    | .closeParen => .error ⟨.unexpected, l.start⟩
    | .quoteMark =>
      if maxDepth ≤ p.depth + 1 then .error ⟨.tooDeep maxDepth, l.stop⟩ else .ok (p.enter .quoted)
    | .stray => .error ⟨.invalid, l.start⟩
    | .atom text =>
      match readAtom text with
      | .ok v => .ok (complete p.done p.pending v)
      | .error cause => .error ⟨cause, l.start⟩

/-- Reads one lexeme. In a list a closing parenthesis ends it, and a dot after at least one element
announces its tail. -/
def step (maxDepth : Nat) (p : Progress) (l : Lexeme) : Except Fault Progress :=
  match p.pending with
  | .list elements :: pending =>
    match l.token with
    | .closeParen => .ok (complete p.done pending (.ofList elements.reverse))
    | .atom ['.'] =>
      if elements.isEmpty then .error ⟨.unexpected, l.start⟩
      else .ok { p with pending := .dotted elements :: pending }
    | _ => p.datum maxDepth l
  | .ending elements tail :: pending =>
    match l.token with
    | .closeParen => .ok (complete p.done pending (.ofListTail elements.reverse tail))
    | _ => .error ⟨.unexpected, l.start⟩
  | _ => p.datum maxDepth l

/-- The data read, if no form is open. Where a datum could not be nested any deeper, that is the
fault, and not the missing text. -/
def finish (maxDepth : Nat) (p : Progress) : Except Fault (List Value) :=
  match p.pending with
  | [] => .ok p.done.reverse
  | _ :: _ =>
    if maxDepth ≤ p.depth then .error ⟨.tooDeep maxDepth, []⟩ else .error ⟨.unexpectedEnd, []⟩

/-- Whether exactly one datum has been read, and nothing else begun. -/
def isSingle (p : Progress) : Bool :=
  p.pending.isEmpty && !p.done.isEmpty

/-- Reads all lexemes. -/
def readAll (maxDepth : Nat) (p : Progress) (ls : List Lexeme) : Except Fault (List Value) := do
  (← ls.foldlM (step maxDepth) p).finish maxDepth

/-- Reads lexemes as long as no datum is complete; after one there may be none left. -/
def readOne (maxDepth : Nat) : Progress → List Lexeme → Except Fault (List Value)
  | p, [] => p.finish maxDepth
  | p, l :: ls =>
    if p.isSingle then .error ⟨.trailing, l.start⟩
    else do readOne maxDepth (← p.step maxDepth l) ls

end Progress

namespace Config

/-- All data of a text. -/
def parseAll (config : Config) (text : String) : Except ReadError (List Value) :=
  let input := text.toList
  match Progress.readAll config.maxDepth {} (lexemes config.comments input) with
  | .ok vs => .ok vs
  | .error fault => .error (fault.toError input)

/-- The datum of a text that holds exactly one. -/
def parse (config : Config) (text : String) : Except ReadError Value :=
  let input := text.toList
  match Progress.readOne config.maxDepth {} (lexemes config.comments input) with
  | .ok [] => .error .emptyInput
  | .ok (v :: _) => .ok v
  | .error fault => .error (fault.toError input)

end Config

/-- The datum of a text that holds exactly one, read in the usual way. -/
def parse (text : String) : Except ReadError Value :=
  ({} : Config).parse text

/-- All data of a text, read in the usual way. -/
def parseAll (text : String) : Except ReadError (List Value) :=
  ({} : Config).parseAll text

end DynLisp.Reader
