import Abacus.Action
import Abacus.Chunk
import Abacus.Decimal.Literal
import Abacus.Limits

namespace Abacus

/-!
# Assembling bytecode from actions

* `Assembly` — a chunk that grows, how many operands wait on the stack, and what was found wrong.
* `Assembly.perform` — what one action does.
* `Assembly.constant` — how a number enters the chunk, and its two limits.
-/

/-- A chunk in the making. -/
structure Assembly where
  chunk : Chunk
  /-- How many operands wait on the stack when the code so far has run. -/
  pending : Nat := 0
  diagnostics : Array Diagnostic := #[]

namespace Assembly

/-- Records that something is wrong. -/
def record (a : Assembly) (cause : Diagnostic.Cause) (position : Position) : Assembly :=
  { a with diagnostics := a.diagnostics.push ⟨cause, position⟩ }

/-- Records that something is wrong if a condition holds. -/
def complainIf (a : Assembly) (condition : Bool) (complaint : Complaint) (position : Position) :
    Assembly :=
  if condition then a.record (.grammatical complaint) position else a

/-- Adds a constant and the instruction that pushes it. A constant whose index does not fit into
    the operand byte is kept, but the instruction refers to the first one. -/
def constant (a : Assembly) (value : Float) (position : Position) : Assembly :=
  let (index, chunk) := a.chunk.addConstant value
  let fits := index < constantMax
  let a := { a with chunk }.complainIf (!fits) .tooManyConstants position
  let operand := if fits then UInt8.ofNat index else 0
  let a := { a with
    chunk := (a.chunk.emit .constant).write operand
    pending := a.pending + 1 }
  a.complainIf (a.pending = stackMax + 1) .tooDeepForStack position

/-- What an action does to a chunk in the making. -/
def perform (a : Assembly) : Action → Assembly
  | .scan t => if t.isError then a.record (.lexical t.lexeme) t.position else a
  | .literal t =>
    match Literal.read? t.lexeme with
    | some value => a.constant value t.position
    | none => a.record (.grammatical .invalidNumber) t.position
  | .emit opcode => { a with chunk := a.chunk.emit opcode }
  | .merge => { a with pending := a.pending - 1 }
  | .report complaint t => a.record (.grammatical complaint) t.position
  | .consume _ | .enter | .leave | .extend _ | .apply _ _ => a

/-- What actions do, one after the other. -/
def performAll (a : Assembly) (actions : List Action) : Assembly := actions.foldl perform a

@[simp] theorem performAll_nil (a : Assembly) : a.performAll [] = a := rfl

@[simp] theorem performAll_cons (a : Assembly) (action : Action) (actions : List Action) :
    a.performAll (action :: actions) = (a.perform action).performAll actions := rfl

@[simp] theorem performAll_append (a : Assembly) (actions more : List Action) :
    a.performAll (actions ++ more) = (a.performAll actions).performAll more :=
  List.foldl_append

end Assembly

end Abacus
