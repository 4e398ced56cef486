namespace Abacus

/-!
# Limits

How much of each thing there is room for.
-/

/-- How many values the stack of the machine holds. -/
def stackMax : Nat := 256

/-- How many constants the operand byte of an instruction can tell apart. -/
def constantMax : Nat := 256

/-- How deep the operands of an expression may nest. -/
def levelMax : Nat := 1024

end Abacus
