import Abacus.Directory
import Abacus.Session

namespace Abacus

/-!
# Running a script

* `Script.run` — the report and the log of a script, once it was tried to read it.
-/

namespace Script

/-- Reports that a script could not be read. -/
def unreadable (path : String) (reason : String) : Report where
  stderr := "Could not read " ++ path ++ ": " ++ reason ++ "\n"
  status := .ioError

/-- Evaluates a script that was read, under the name of its path. -/
def evaluate (config : Config) (path source : String) : Report × List Event :=
  let evaluation := Session.evaluate { config } source path
  (evaluation.report, .runningFile path source.utf8ByteSize :: evaluation.events)

/-- Runs the script at a path of a directory. -/
def run (config : Config) (directory : Directory) (path : String) : Report × List Event :=
  match directory.read path with
  | .ok source => evaluate config path source
  | .error e => (unreadable path e.reason, [])

end Script

end Abacus
