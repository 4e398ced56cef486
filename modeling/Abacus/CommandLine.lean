import Abacus.Invocation
import Abacus.Script

namespace Abacus

/-!
# Answers on the command line

* `Exit` — what the program prints and how it exits.
* `Invocation.exit` — the answer to an invocation in a working directory.
-/

/-- What the program prints, and its exit status. -/
structure Exit where
  stdout : String := ""
  stderr : String := ""
  code : Nat := 0
  deriving DecidableEq

/-- A report is printed as it is. -/
def Report.exit (r : Report) : Exit where
  stdout := r.stdout
  stderr := r.stderr
  code := r.status.code

/-- The answer to an invocation; a prompt is taken to be left at once. -/
def Invocation.exit (directory : Directory) : Invocation → Exit
  | run script config => (Script.run config directory script).1.exit
  | prompt _ => {}
  | version => { stdout := versionText }
  | help => { stdout := helpText }
  | misuse => { stderr := usageText, code := misuseCode }

end Abacus
