namespace Abacus

/-!
# Opcodes

Each instruction of the machine begins with one byte.

* `Opcode.byte`, `Opcode.ofByte?` — the byte of an opcode and back.
* `Opcode.operandLength` — how many bytes follow it.
-/

/-- What an instruction does. -/
inductive Opcode where
  /-- Pushes the constant whose index follows. -/
  | constant
  | negate
  | add
  | sub
  | mul
  | div
  /-- Ends the run with the value on top of the stack. -/
  | ret
  deriving DecidableEq

namespace Opcode

/-- Every opcode once. -/
def all : List Opcode := [constant, negate, add, sub, mul, div, ret]

/-- The byte of an opcode. -/
def byte : Opcode → UInt8
  | constant => 0
  | negate => 1
  | add => 2
  | sub => 3
  | mul => 4
  | div => 5
  | ret => 6

/-- The opcode of a byte. -/
def ofByte? (b : UInt8) : Option Opcode := all.find? (·.byte = b)

/-- The name shown in listings. -/
def name : Opcode → String
  | constant => "CONSTANT"
  | negate => "NEGATE"
  | add => "ADD"
  | sub => "SUB"
  | mul => "MUL"
  | div => "DIV"
  | ret => "RETURN"

/-- The number of bytes after the opcode that belong to the instruction. -/
def operandLength : Opcode → Nat
  | constant => 1
  | _ => 0

@[simp] theorem ofByte?_byte (op : Opcode) : ofByte? op.byte = some op := by cases op <;> rfl

theorem byte_eq_of_ofByte? {b : UInt8} {op : Opcode} (h : ofByte? b = some op) : op.byte = b := by
  simpa using List.find?_some h

end Opcode

end Abacus
