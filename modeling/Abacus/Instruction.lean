import Abacus.Chunk
import Abacus.Decimal.Layout
import Abacus.Text.Align

namespace Abacus

/-!
# Instructions and listings

* `Instruction` — one decoded instruction, or what stands in its place.
* `Instruction.decode` — the instruction at an address, and the address behind it.
* `Chunk.listing` — all instructions of a chunk with their addresses.
* `Chunk.disassemble` — the listing as text.
-/

/-- One decoded instruction, or what stands in its place. -/
inductive Instruction where
  /-- Pushes a constant, which may be missing. -/
  | constant (index : UInt8) (value : Option Float)
  /-- Has no operand. -/
  | simple (opcode : Opcode)
  /-- Lacks its operand, because the code ends. -/
  | truncated (opcode : Opcode)
  /-- Is a byte that belongs to no opcode. -/
  | unknown (byte : UInt8)
  /-- Would stand behind the last byte. -/
  | pastEnd

namespace Instruction

/-- The width to which an opcode is filled when something follows it. -/
def nameWidth : Nat := 16

/-- The text of an instruction. -/
def text : Instruction → String
  | constant index value =>
    Text.alignLeft nameWidth Opcode.constant.name ++ " "
      ++ Text.alignRight ' ' 4 (toString index.toNat) ++ " "
      ++ match value with
        | some x => "'" ++ Layout.plain.write x ++ "'"
        | none => "<missing>"
  | simple opcode => opcode.name
  | truncated opcode => Text.alignLeft nameWidth opcode.name ++ " <truncated>"
  | unknown byte => "Unknown opcode " ++ toString byte.toNat
  | pastEnd => "<end>"

/-- The instruction at an address, and the address of the next one. -/
def decode (chunk : Chunk) (address : Nat) : Instruction × Nat :=
  match chunk.byte? address with
  | none => (pastEnd, address)
  | some b =>
    match Opcode.ofByte? b with
    | none => (unknown b, address + 1)
    | some .constant =>
      match chunk.byte? (address + 1) with
      | some index => (constant index (chunk.constant? index.toNat), address + 2)
      | none => (truncated .constant, address + 1)
    | some opcode => (simple opcode, address + 1 + opcode.operandLength)

/-- Within the code, the next instruction lies further on. -/
theorem lt_decode_next {chunk : Chunk} {address : Nat} (h : address < chunk.length) :
    address < (decode chunk address).2 := by
  unfold decode
  split
  -- There is a byte here, so the code does not end.
  · next hb => exact absurd (Chunk.byte?_eq_none_iff.1 hb) (Nat.not_le.2 h)
  · split
    · exact Nat.lt_succ_self _
    · split
      · exact Nat.lt_add_of_pos_right (Nat.succ_pos 1)
      · exact Nat.lt_succ_self _
    · exact Nat.lt_of_lt_of_le (Nat.lt_succ_self _) (Nat.le_add_right _ _)

end Instruction

/-- An address in listings and messages has at least four digits. -/
def addressText (address : Nat) : String := Text.alignRight '0' 4 (toString address)

/-- A line of a listing, without its end. -/
def listingLine (address : Nat) (instruction : Instruction) : String :=
  addressText address ++ " " ++ instruction.text

namespace Chunk

/-- The instructions from an address on, with their addresses. -/
def listingFrom (c : Chunk) (address : Nat) : List (Nat × Instruction) :=
  if h : address < c.length then
    have := Instruction.lt_decode_next h
    (address, (Instruction.decode c address).1)
      :: c.listingFrom (Instruction.decode c address).2
  else
    []
termination_by c.length - address

theorem listingFrom_of_lt {c : Chunk} {address : Nat} (h : address < c.length) :
    c.listingFrom address =
      (address, (Instruction.decode c address).1)
        :: c.listingFrom (Instruction.decode c address).2 := by
  rw [listingFrom, dif_pos h]

theorem listingFrom_of_le {c : Chunk} {address : Nat} (h : c.length ≤ address) :
    c.listingFrom address = [] := by
  rw [listingFrom, dif_neg (Nat.not_lt.2 h)]

/-- All instructions, with their addresses. -/
def listing (c : Chunk) : List (Nat × Instruction) := c.listingFrom 0

/-- The listing as text, under a heading. -/
def disassemble (c : Chunk) (name : String) : String :=
  "== " ++ name ++ " ==\n"
    ++ String.join (c.listing.map fun (address, instruction) =>
      listingLine address instruction ++ "\n")

end Chunk

end Abacus
