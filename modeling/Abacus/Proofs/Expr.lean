import Abacus.Action.Operand

namespace Abacus

/-!
# Arithmetic trees

The tree of an expression, with parentheses forgotten, and what it means: a value, postfix code,
and the room that this code takes on a stack.

* `BinaryOp` — the four operators on two operands, each with its token, opcode and function.
* `Expr α` — trees whose leaves are literals of type `α`.
* `Expr.value` — the value of a tree of numbers.
* `Expr.indexed`, `Expr.code` — the numbering of the literals, and the postfix code of a tree whose
  leaves are indices of constants.
* `Expr.need` — how many values the code holds on the stack at most.
-/

/-! ### Operators -/

/-- The operators on two operands. -/
inductive BinaryOp where
  | add
  | sub
  | mul
  | div
  deriving DecidableEq

namespace BinaryOp

/-- The kind of token that spells an operator. -/
def kind : BinaryOp → Kind
  | add => .operator .plus false
  | sub => .operator .minus false
  | mul => .operator .star false
  | div => .operator .slash false

/-- The instruction of an operator. -/
def opcode : BinaryOp → Opcode
  | add => .add
  | sub => .sub
  | mul => .mul
  | div => .div

/-- How tightly an operator binds. -/
def binding : BinaryOp → Precedence
  | add => .term
  | sub => .term
  | mul => .factor
  | div => .factor

/-- The function that an operator stands for. -/
def apply : BinaryOp → Float → Float → Float
  | add => (· + ·)
  | sub => (· - ·)
  | mul => (· * ·)
  | div => (· / ·)

/-- Operators are told apart by their tokens. -/
theorem kind_injective {op op' : BinaryOp} (h : op.kind = op'.kind) : op = op' := by
  cases op <;> cases op' <;> first | rfl | cases h

/-- The rule for the token of an operator has the operator's precedence. -/
@[simp] theorem binding_of_kind (op : BinaryOp) : (Rule.of op.kind).binding = op.binding := by
  cases op <;> rfl

/-- The token of an operator joins two operands. -/
@[simp] theorem joins_of_kind (op : BinaryOp) : (Rule.of op.kind).joins = some .binary := by
  cases op <;> rfl

/-- The token of an operator tells its opcode. -/
@[simp] theorem binaryOpcode?_kind (op : BinaryOp) : binaryOpcode? op.kind = some op.opcode := by
  cases op <;> rfl

/-- The right operand of any operator binds at least as tightly as an expression. -/
theorem assignment_le_next (op : BinaryOp) : .assignment ≤ op.binding.next := by
  cases op <;> decide

theorem opcode_ne_constant (op : BinaryOp) : op.opcode ≠ .constant := by
  cases op <;> decide

theorem opcode_ne_ret (op : BinaryOp) : op.opcode ≠ .ret := by
  cases op <;> decide

/-- A kind of token that holds the operand before it is the kind of an operator. -/
theorem exists_of_binding {kind : Kind} (h : .assignment ≤ (Rule.of kind).binding) :
    ∃ op : BinaryOp, kind = op.kind := by
  revert h
  unfold Rule.of
  split <;> intro h
  case h_2 => exact ⟨sub, rfl⟩
  case h_3 => exact ⟨add, rfl⟩
  case h_4 => exact ⟨mul, rfl⟩
  case h_5 => exact ⟨div, rfl⟩
  all_goals exact absurd h (by decide)

end BinaryOp

/-- The operand byte for the constant at an index; one that does not fit is told as the first. -/
def operandByte (index : Nat) : UInt8 :=
  if index < constantMax then UInt8.ofNat index else 0

/-- The operand of a constant is its index, or zero where the index is no byte. -/
theorem toNat_operandByte (index : Nat) :
    (operandByte index).toNat = if index < constantMax then index else 0 := by
  unfold operandByte
  by_cases h : index < constantMax
  · rw [if_pos h, if_pos h]
    exact Nat.mod_eq_of_lt h
  · rw [if_neg h, if_neg h]
    rfl

theorem toNat_operandByte_le (index : Nat) : (operandByte index).toNat ≤ index := by
  rw [toNat_operandByte]
  split
  · exact Nat.le_refl _
  · exact Nat.zero_le _

/-! ### Trees -/

/-- An expression without its parentheses. -/
inductive Expr (α : Type) where
  | number (literal : α)
  | negate (operand : Expr α)
  | binary (op : BinaryOp) (left right : Expr α)
  deriving DecidableEq

namespace Expr

variable {α β : Type}

/-- The tree with every literal replaced. -/
def map (f : α → β) : Expr α → Expr β
  | number a => number (f a)
  | negate e => negate (e.map f)
  | binary op l r => binary op (l.map f) (r.map f)

/-- The literals of a tree, from left to right. -/
def literals : Expr α → List α
  | number a => [a]
  | negate e => e.literals
  | binary _ l r => l.literals ++ r.literals

/-- The value of a tree of numbers. -/
def value : Expr Float → Float
  | number x => x
  | negate e => -e.value
  | binary op l r => op.apply l.value r.value

/-- How many values wait on a stack at most while the tree is worked out, operands first. -/
def need : Expr α → Nat
  | number _ => 1
  | negate e => e.need
  | binary _ l r => max l.need (1 + r.need)

/-- The tree with its literals replaced by the operand bytes of successive constants. -/
def indexed (first : Nat) : Expr α → Expr UInt8
  | number _ => number (operandByte first)
  | negate e => negate (e.indexed first)
  | binary op l r => binary op (l.indexed first) (r.indexed (first + l.literals.length))

/-- The postfix code of a tree whose literals are operand bytes. -/
def code : Expr UInt8 → List UInt8
  | number i => [Opcode.constant.byte, i]
  | negate e => e.code ++ [Opcode.negate.byte]
  | binary op l r => l.code ++ r.code ++ [op.opcode.byte]

/-- Changing the literals of a tree changes them one by one. -/
theorem literals_map (f : α → β) (e : Expr α) : (e.map f).literals = e.literals.map f := by
  induction e with
  | number _ => rfl
  | negate e ih => exact ih
  | binary op l r ihl ihr => rw [map, literals, literals, ihl, ihr, List.map_append]

/-- There is a literal in every tree. -/
theorem literals_length_pos (e : Expr α) : 0 < e.literals.length := by
  induction e with
  | number _ => exact Nat.one_pos
  | negate e ih => exact ih
  | binary op l r ihl ihr =>
    rw [literals, List.length_append]
    omega

/-- Every tree needs room on the stack. -/
theorem need_pos (e : Expr α) : 0 < e.need := by
  induction e with
  | number _ => exact Nat.one_pos
  | negate e ih => exact ih
  | binary op l r ihl ihr =>
    rw [need]
    omega

/-- Never more values wait than there are literals. -/
theorem need_le_length (e : Expr α) : e.need ≤ e.literals.length := by
  induction e with
  | number _ => exact Nat.le_refl _
  | negate e ih => exact ih
  | binary op l r ihl ihr =>
    have := l.literals_length_pos
    rw [need, literals, List.length_append]
    omega

/-- Numbering the literals of a tree does not change what it needs. -/
@[simp] theorem need_indexed (e : Expr α) (first : Nat) : (e.indexed first).need = e.need := by
  induction e generalizing first with
  | number _ => rfl
  | negate e ih => exact ih first
  | binary op l r ihl ihr => simp only [indexed, need, ihl, ihr]

end Expr

end Abacus
