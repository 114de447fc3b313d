import DynLisp.Session

/-!
# The interactive interpreter

A `Repl` is fed line by line and answers each line with the text to be shown. Lines are collected
until they hold complete expressions only; these are then evaluated one after the other. A line by
itself may also be a command.
-/

namespace DynLisp

/-- A command to the interactive interpreter. -/
inductive Command where
  | help
  | environment
  | reset
  | quit
deriving DecidableEq

/-- The command that a line is, without the white space around it. -/
def Command.ofLine? (line : String) : Option Command :=
  match String.ofList (Reader.trim line.toList) with
  | ":help" => some help
  | ":env" => some environment
  | ":reset" => some reset
  | ":quit" | ":exit" => some quit
  | _ => none

/-- The interactive interpreter with the lines of an expression that is not complete yet. -/
structure Repl where
  session : Session := {}
  pending : String := ""

namespace Repl

/-- Lines of text, each with its end. -/
def lines (ls : List String) : String :=
  String.join (ls.map (· ++ "\n"))

/-- What is shown first. -/
def banner : String := lines [
  "ConsLisp - a small dynamically scoped Lisp",
  "Enter S-expressions like: (+ 1 2)",
  "Type :help for more commands, or Ctrl+C to exit.",
  ""]

/-- What is shown last. -/
def farewell : String := lines ["Goodbye!"]

/-- The answer to `:help`. -/
def helpText : String := lines [
  "ConsLisp REPL commands:",
  "  :help      - Show this help message",
  "  :env       - Show user-defined bindings",
  "  :reset     - Discard all user definitions",
  "  :quit      - Exit the interpreter",
  "  :exit      - Exit the interpreter",
  "  Ctrl+C     - Cancel a pending multi-line expression, or exit",
  "",
  "Values:",
  "  Integers: 42, -5",
  "  Floats: 2.5, 1e3",
  "  Lists: '(1 2 3), '(1 . 2), ()",
  "",
  "Forms and builtins:",
  "  Arithmetic: + - * / ceiling floor",
  "  Lists: cons car cdr quote",
  "  Predicates: nullp symbolp intp doublep listp procedurep < not",
  "  Control: if define lambda let apply eval print",
  "",
  "Examples:",
  "  (+ 1 2.0)",
  "  (define sq (lambda (x) (* x x)))",
  "  (sq 5)",
  "  (let ((a 1) (b 2)) (+ a b))",
  ""]

/-- The names of the procedures, if there are any. -/
def procedureLines (names : List String) : List String :=
  if names.isEmpty then []
  else ["Procedures (" ++ toString names.length ++ "):"] ++ names.map ("  " ++ ·) ++ [""]

/-- The names and values of everything else, if there is any. -/
def valueLines (bindings : List (String × Value)) : List String :=
  if bindings.isEmpty then []
  else ["Values (" ++ toString bindings.length ++ "):"] ++
    bindings.map fun (name, v) => "  " ++ name ++ " = " ++ v.display

/-- The answer to `:env`: procedures first, then the other bindings. -/
def environmentText (bindings : List (String × Value)) : String :=
  if bindings.isEmpty then lines ["No user-defined bindings."]
  else
    let (procedures, others) := bindings.partition fun (_, v) => v.isProcedure
    lines (procedureLines (procedures.map Prod.fst) ++ valueLines others)

/-- The line that tells an error. -/
def errorLine (message : String) : String :=
  lines ["Error: " ++ message]

/-- The answer to a line: the text to show, and the interpreter for the next line unless it was the
last. -/
structure Reply where
  output : String
  next : Option Repl

/-- Evaluates expressions up to the first that fails. Before each result comes what its evaluation
printed. -/
def evalForms : List Value → Session → Option (String × Session)
  | [], s => some ("", s)
  | e :: es, s => do
    let (outcome, s') ← Session.eval e s
    let printed := s'.printedFrom s.printedSize
    match outcome with
    | .ok v =>
      let (output, s') ← evalForms es s'
      return (printed ++ lines [v.display] ++ output, s')
    | .error failure => return (printed ++ errorLine failure.message, s')

/-- Carries out a command. -/
def runCommand (r : Repl) : Command → Reply
  | .help => ⟨helpText, some r⟩
  | .environment => ⟨environmentText r.session.bindings, some r⟩
  | .reset => ⟨lines ["Environment reset."], some { r with session := r.session.reset }⟩
  | .quit => ⟨farewell, none⟩

/-- Takes a line of program text. While an expression is not complete, nothing is answered; text
that cannot be read at all is thrown away. -/
def addLine (r : Repl) (line : String) : Option Reply :=
  let text := r.pending ++ line ++ "\n"
  match Reader.parseAll text with
  | .ok es => do
    let (output, session) ← evalForms es r.session
    return ⟨output, some { session, pending := "" }⟩
  | .error e =>
    if e.kind = .incomplete then some ⟨"", some { r with pending := text }⟩
    else some ⟨errorLine (Failure.read e).message, some { r with pending := "" }⟩

/-- Takes a line; none if an evaluation does not finish. Commands and empty lines are only looked
for where no expression is pending. -/
def feed (r : Repl) (line : String) : Option Reply :=
  if r.pending.isEmpty then
    if (Reader.trim line.toList).isEmpty then some ⟨"", some r⟩
    else
      match Command.ofLine? line with
      | some command => some (r.runCommand command)
      | none => r.addLine line
  else r.addLine line

/-- How the interactive interpreter ends: all that it showed, and its exit status. -/
structure Ending where
  shown : String
  status : UInt32
deriving DecidableEq

/-- The exit status after the last line, be it the end of the input or a command. -/
def finished : UInt32 := 0

/-- The exit status where an evaluation does not finish. -/
def brokenOff : UInt32 := 1

/-- The ending after a text was shown. -/
def Ending.after (output : String) (ending : Ending) : Ending :=
  { ending with shown := output ++ ending.shown }

/-- Answers a list of lines and the end of the input after them. -/
def run (r : Repl) : List String → Ending
  | [] => ⟨farewell, finished⟩
  | line :: rest =>
    match r.feed line with
    | none => ⟨"", brokenOff⟩
    | some ⟨output, none⟩ => ⟨output, finished⟩
    | some ⟨output, some r⟩ => (r.run rest).after output

/-- The ending where the given lines are the whole input. -/
def program (input : List String) (limits : Limits := {}) : Ending :=
  (run { session := { limits } } input).after banner

/-- Everything that is shown while the given lines are the whole input, if all evaluations
finish. -/
def transcript (input : List String) : Option String :=
  let ending := program input
  if ending.status = finished then some ending.shown else none

/-- A line without its end, which may be a line feed, or a carriage return before it. -/
def chomp (line : List Char) : List Char :=
  match line.reverse with
  | '\n' :: '\r' :: cs => cs.reverse
  | '\n' :: cs => cs.reverse
  | _ => line

/-- The lines of a text with their ends, of which the last may be missing. The characters of the
line that is being read are kept with the last one first. -/
def splitLines (current : List Char) : List Char → List (List Char)
  | [] => if current.isEmpty then [] else [current.reverse]
  | '\n' :: cs => ('\n' :: current).reverse :: splitLines [] cs
  | c :: cs => splitLines (c :: current) cs

/-- The lines that a text is fed as. -/
def inputLines (text : String) : List String :=
  (splitLines [] text.toList).map fun line => String.ofList (chomp line)

end Repl

end DynLisp
