import Abacus.Compilation
import Abacus.Instruction
import Abacus.Machine

namespace Abacus

/-!
# The log

* `Event` — something worth logging, with its level, message and fields.
* `Compilation.events`, `Machine.Run.events` — what compiling and running log.
-/

/-- How much detail an event is. -/
inductive Level where
  | trace
  | debug
  | info
  deriving DecidableEq

/-- The name of a level. -/
def Level.name : Level → String
  | trace => "TRACE"
  | debug => "DEBUG"
  | info => "INFO"

/-- The value of a field. -/
inductive Field where
  | count (n : Nat)
  | text (s : String)
  deriving DecidableEq

/-- Something worth logging. -/
inductive Event where
  /-- A token was scanned. -/
  | token (t : Token)
  /-- A chunk was compiled: its bytes and constants, and how many errors there were. -/
  | compiled (bytes constants errors : Nat)
  /-- There were errors, so nothing is run. -/
  | compileFailed (count : Nat)
  /-- An instruction is about to be carried out. -/
  | step (address : Nat) (instruction : Instruction) (stack : Stack stackMax Float)
  /-- A script was read. -/
  | runningFile (path : String) (bytes : Nat)

namespace Event

/-- How much detail an event is. -/
def level : Event → Level
  | token _ => .trace
  | compiled .. => .debug
  | compileFailed _ => .debug
  | step .. => .trace
  | runningFile .. => .info

/-- The message of an event. -/
def message : Event → String
  | token _ => "token"
  | compiled .. => "compiled chunk"
  | compileFailed _ => "compile failed"
  | step address instruction _ => listingLine address instruction
  | runningFile .. => "running file"

/-- The fields of an event, with their names. -/
def fields : Event → List (String × Field)
  | token t =>
    [("line", .count t.position.line), ("column", .count t.position.column),
      ("kind", .text t.kind.name), ("lexeme", .text t.lexeme)]
  | compiled bytes constants errors =>
    [("bytes", .count bytes), ("constants", .count constants), ("errors", .count errors)]
  | compileFailed count => [("count", .count count)]
  | step _ _ stack => [("stack", .text (stack.text Layout.explicit.write))]
  | runningFile path bytes => [("path", .text path), ("bytes", .count bytes)]

end Event

/-- The log of a compilation: the tokens, and then the sizes. -/
def Compilation.events (c : Compilation) : List Event :=
  c.scanned.map .token
    ++ [.compiled c.chunk.length c.chunk.constants.size c.diagnostics.length]

/-- The log of a run: each instruction and the stack before it. -/
def Machine.Run.events (r : Machine.Run) (chunk : Chunk) : List Event :=
  r.visited.map fun m => .step m.address (Instruction.decode chunk m.address).1 m.stack

end Abacus
