import Abacus.Event
import Abacus.Notice

namespace Abacus

/-!
# Sessions

* `Config` — how results are shown.
* `Report` — what one evaluation prints, and its exit status.
* `Session.evaluate` — compiles and runs a source text, and reports.
-/

/-- How results are shown. -/
structure Config where
  /-- Is the listing of the bytecode shown before the value? -/
  disassemble : Bool := false
  /-- Are notices coloured? -/
  color : Bool := true
  deriving DecidableEq

/-- How an evaluation ends. -/
inductive Status where
  | ok
  /-- The source text has errors. -/
  | dataError
  /-- The bytecode failed. -/
  | software
  /-- The source text could not be read. -/
  | ioError
  deriving DecidableEq

/-- The exit status of the program. -/
def Status.code : Status → Nat
  | ok => 0
  | dataError => 65
  | software => 70
  | ioError => 74

/-- What an evaluation prints. -/
structure Report where
  stdout : String := ""
  stderr : String := ""
  status : Status := .ok
  deriving DecidableEq

/-- A machine that is used for one evaluation after the other. -/
structure Session where
  config : Config
  machine : Machine := .initial

/-- An evaluation: what it prints, what it logs, and the session after it. -/
structure Evaluation where
  report : Report
  events : List Event
  session : Session

namespace Session

/-- Compiles and runs a source text called `name`. -/
def evaluate (s : Session) (source name : String) : Evaluation :=
  let render (n : Notice) := n.render name s.config.color
  let compilation := compileInto .empty source
  let diagnostics := compilation.diagnostics
  if diagnostics.isEmpty then
    let chunk := compilation.chunk
    let listing := if s.config.disassemble then chunk.disassemble name else ""
    let run := s.machine.run chunk
    { report :=
        match run.result with
        | .ok value => { stdout := listing ++ Layout.plain.write value ++ "\n" }
        | .error fault =>
          { stdout := listing
            stderr := render fault.notice
            status := .software }
      events := compilation.events ++ run.events chunk
      session := { s with machine := run.final } }
  else
    { report :=
        { stderr := String.join (diagnostics.map fun d => render d.notice)
          status := .dataError }
      events := compilation.events ++ [.compileFailed diagnostics.length]
      session := s }

end Session

end Abacus
