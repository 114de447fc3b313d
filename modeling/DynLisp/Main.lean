import DynLisp.Repl

/-!
# The command line

Feeds the lines of the standard input to the interactive interpreter.
-/

namespace DynLisp

/-- Answers line after line until the input ends, or a line says so. -/
partial def answerLines (stdin stdout : IO.FS.Stream) (r : Repl) : IO UInt32 := do
  let line ← stdin.getLine
  if line.isEmpty then
    stdout.putStr Repl.farewell
    return Repl.finished
  match r.feed (String.ofList (Repl.chomp line.toList)) with
  | none => return Repl.brokenOff
  | some reply =>
    stdout.putStr reply.output
    stdout.flush
    match reply.next with
    | none => return Repl.finished
    | some r => answerLines stdin stdout r

end DynLisp

/-- Runs the interactive interpreter on the standard streams. -/
def main : IO UInt32 := do
  let stdin ← IO.getStdin
  let stdout ← IO.getStdout
  stdout.putStr DynLisp.Repl.banner
  DynLisp.answerLines stdin stdout {}
