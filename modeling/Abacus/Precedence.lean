import Abacus.Token

namespace Abacus

/-!
# Precedence and the rules of expressions

* `Precedence` — how tightly an operator binds, weakest first.
* `Role` — what a token does in an expression.
* `Rule.of` — the roles of each kind of token: one at the beginning of an operand, one between
  two operands.
-/

/-- How tightly an operator binds. -/
inductive Precedence where
  | none
  | assignment
  | or
  | and
  | equality
  | comparison
  | term
  | factor
  | unary
  | call
  | primary
  deriving DecidableEq

namespace Precedence

/-- Every precedence, weakest first. -/
def all : List Precedence :=
  [none, assignment, or, and, equality, comparison, term, factor, unary, call, primary]

/-- The place in the order, from zero. -/
def rank : Precedence → Nat
  | none => 0
  | assignment => 1
  | or => 2
  | and => 3
  | equality => 4
  | comparison => 5
  | term => 6
  | factor => 7
  | unary => 8
  | call => 9
  | primary => 10

instance : LT Precedence := ⟨fun p q => p.rank < q.rank⟩

instance : LE Precedence := ⟨fun p q => p.rank ≤ q.rank⟩

instance (p q : Precedence) : Decidable (p < q) := inferInstanceAs (Decidable (p.rank < q.rank))

instance (p q : Precedence) : Decidable (p ≤ q) := inferInstanceAs (Decidable (p.rank ≤ q.rank))

/-- One step tighter; the tightest stays as it is. The right operand of an operator binds one
    step tighter than the operator, so that equal operators associate to the left. -/
def next : Precedence → Precedence
  | none => assignment
  | assignment => or
  | or => and
  | and => equality
  | equality => comparison
  | comparison => term
  | term => factor
  | factor => unary
  | unary => call
  | call => primary
  | primary => primary

theorem rank_next (p : Precedence) : p.next.rank = min (p.rank + 1) primary.rank := by
  cases p <;> rfl

theorem lt_iff (p q : Precedence) : p < q ↔ p.rank < q.rank := Iff.rfl

theorem le_iff (p q : Precedence) : p ≤ q ↔ p.rank ≤ q.rank := Iff.rfl

theorem not_lt (p q : Precedence) : ¬ p < q ↔ q ≤ p := Nat.not_lt

end Precedence

/-- What a token does in an expression. -/
inductive Role where
  /-- Opens a parenthesised expression. -/
  | grouping
  /-- Acts on the operand that follows. -/
  | unary
  /-- Joins the operands on its two sides. -/
  | binary
  /-- Is an operand. -/
  | number
  deriving DecidableEq

/-- How a kind of token takes part in expressions. -/
structure Rule where
  /-- The role at the beginning of an operand. -/
  starts : Option Role := none
  /-- The role after an operand. -/
  joins : Option Role := none
  /-- How tightly the token holds the operand before it. -/
  binding : Precedence := .none
  deriving DecidableEq

namespace Rule

/-- The rule of each kind of token. -/
def of : Kind → Rule
  | .delimiter .leftParen => { starts := some .grouping }
  | .operator .minus false =>
    { starts := some .unary
      joins := some .binary
      binding := .term }
  | .operator .plus false => { joins := some .binary, binding := .term }
  | .operator .star false => { joins := some .binary, binding := .factor }
  | .operator .slash false => { joins := some .binary, binding := .factor }
  | .number => { starts := some .number }
  | _ => {}

/-- A token that holds the operand before it joins two operands. -/
theorem joins_of_binding {kind : Kind} (h : .assignment ≤ (of kind).binding) :
    (of kind).joins = some .binary := by
  revert h
  unfold of
  split <;> decide

theorem joins_eof : (of .eof).joins = none := rfl

end Rule

end Abacus
