import Abacus.Action.Operand
import Abacus.Assembly
import Abacus.Token.Scan

namespace Abacus

/-!
# Compiling source text

* `compileInto` — compiles an expression at the end of a chunk.
* `compile` — compiles an expression into a new chunk, or tells all that is wrong with it.
-/

/-- What compiling a source text leads to. After an error the chunk holds what was written all the
    same. -/
structure Compilation where
  chunk : Chunk
  diagnostics : List Diagnostic
  /-- The tokens that were looked at, in order. -/
  scanned : List Token

/-- The token that an action scans. -/
def Action.scanned? : Action → Option Token
  | .scan t => some t
  | _ => none

/-- Compiles an expression at the end of a chunk. -/
def compileInto (chunk : Chunk) (source : String) : Compilation :=
  let actions := parse (scan source)
  let result := Assembly.performAll { chunk } actions
  { chunk := result.chunk
    diagnostics := result.diagnostics.toList
    scanned := actions.filterMap Action.scanned? }

/-- Compiles an expression into a new chunk, or tells all that is wrong with it. -/
def compile (source : String) : Except (List Diagnostic) Chunk :=
  let c := compileInto .empty source
  if c.diagnostics.isEmpty then .ok c.chunk else .error c.diagnostics

end Abacus
