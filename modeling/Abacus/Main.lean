import Abacus.CommandLine

namespace Abacus

/-!
# The program

Evaluates the script that the arguments name, or the lines that are typed at a prompt.
-/

/-- Prints an answer and gives its exit status. -/
def Exit.print (e : Exit) : IO UInt32 := do
  IO.print e.stdout
  IO.eprint e.stderr
  return UInt32.ofNat e.code

/-- The reason that is told for a failure to read a file. -/
def readFailure : IO.Error → String
  | .noFileOrDirectory .. => ReadError.notFound.reason
  | .inappropriateType _ 20 _ => ReadError.notADirectory.reason
  | .inappropriateType _ 21 _ => ReadError.isADirectory.reason
  | e => toString e

/-- Runs the script in a file. -/
def runFile (config : Config) (path : String) : IO Report := do
  try
    match String.fromUTF8? (← IO.FS.readBinFile path) with
    | some source => return (Script.evaluate config path source).1
    | none => return Script.unreadable path ReadError.invalidText.reason
  catch e => return Script.unreadable path (readFailure e)

/-- Evaluates one line after the other until there is none. -/
partial def promptLoop (session : Session) : IO Unit := do
  IO.print "> "
  (← IO.getStdout).flush
  let line ← (← IO.getStdin).getLine
  if line.isEmpty then
    return
  else if line.all Char.isWhitespace then
    promptLoop session
  else
    let evaluation := session.evaluate line "STDIO"
    IO.print (evaluation.report.stdout ++ evaluation.report.stderr)
    promptLoop evaluation.session

end Abacus

open Abacus in
/-- Runs the program. -/
def main (args : List String) : IO UInt32 := do
  match Invocation.ofArguments args with
  | .run script config => (← runFile config script).exit.print
  | .prompt config =>
    promptLoop { config }
    return 0
  | invocation => (invocation.exit ⟨[]⟩).print
