import Abacus.Opcode

namespace Abacus

/-!
# Chunks of bytecode

* `Chunk` — a row of instruction bytes and the constants that they refer to. Both only grow, so an
  index once given stays valid.
* `Chunk.write`, `Chunk.emit`, `Chunk.addConstant` — how they grow.
-/

/-- Instruction bytes and the constants they refer to. Two chunks are equal under `==` if their
    bytes are and their constants compare equal as numbers. -/
structure Chunk where
  code : Array UInt8 := #[]
  constants : Array Float := #[]
  deriving BEq

namespace Chunk

/-- A chunk without code and constants. -/
def empty : Chunk := {}

/-- Adds a byte to the code. -/
def write (c : Chunk) (byte : UInt8) : Chunk := { c with code := c.code.push byte }

/-- Adds the byte of an opcode to the code. -/
def emit (c : Chunk) (opcode : Opcode) : Chunk := c.write opcode.byte

/-- Adds a constant; the first component is its index. -/
def addConstant (c : Chunk) (value : Float) : Nat × Chunk :=
  (c.constants.size, { c with constants := c.constants.push value })

/-- The byte at an address. -/
def byte? (c : Chunk) (address : Nat) : Option UInt8 := c.code[address]?

/-- The constant at an index. -/
def constant? (c : Chunk) (index : Nat) : Option Float := c.constants[index]?

/-- How many bytes of code there are. -/
def length (c : Chunk) : Nat := c.code.size

/-- Is there no code? -/
def isEmpty (c : Chunk) : Bool := c.code.isEmpty

@[simp] theorem length_write (c : Chunk) (byte : UInt8) : (c.write byte).length = c.length + 1 :=
  Array.size_push _

theorem byte?_write (c : Chunk) (byte : UInt8) (address : Nat) :
    (c.write byte).byte? address = if address = c.length then some byte else c.byte? address :=
  Array.getElem?_push

theorem constant?_addConstant (c : Chunk) (value : Float) (index : Nat) :
    (c.addConstant value).2.constant? index =
      if index = (c.addConstant value).1 then some value else c.constant? index :=
  Array.getElem?_push

/-- There is a byte at exactly the addresses below the length. -/
theorem byte?_eq_none_iff {c : Chunk} {address : Nat} :
    c.byte? address = none ↔ c.length ≤ address :=
  Array.getElem?_eq_none_iff

theorem lt_length_of_byte? {c : Chunk} {address : Nat} {b : UInt8} (h : c.byte? address = some b) :
    address < c.length :=
  (Array.getElem?_eq_some_iff.1 h).1

end Chunk

end Abacus
