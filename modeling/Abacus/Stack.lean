import Abacus.Fault

namespace Abacus

/-!
# Bounded stacks

* `Stack capacity α` — at most `capacity` values of type `α`.
* `Stack.push`, `Stack.pop`, `Stack.popTwo` — the operations. One that fails leaves the stack as far
  as it had come.
-/

/-- At most `capacity` values, the top one first. -/
@[ext]
structure Stack (capacity : Nat) (α : Type) where
  items : List α
  length_le : items.length ≤ capacity

namespace Stack

variable {capacity : Nat} {α : Type}

/-- A stack without values. -/
def empty : Stack capacity α := ⟨[], Nat.zero_le _⟩

/-- How many values there are. -/
def length (s : Stack capacity α) : Nat := s.items.length

/-- Are there no values? -/
def isEmpty (s : Stack capacity α) : Bool := s.items.isEmpty

/-- Is there no room for another value? -/
def isFull (s : Stack capacity α) : Bool := capacity ≤ s.length

/-- An operation on a stack, which may fail. -/
abbrev Op (capacity : Nat) (α β : Type) := EStateM Fault.Cause (Stack capacity α) β

/-- Puts a value on top, if there is room. -/
def push (value : α) : Op capacity α Unit := fun s =>
  if h : s.items.length < capacity then .ok () ⟨value :: s.items, h⟩
  else .error .stackOverflow s

/-- Takes the top value off. -/
def pop : Op capacity α α := fun s =>
  match s with
  | ⟨[], h⟩ => .error .stackUnderflow ⟨[], h⟩
  | ⟨value :: items, h⟩ => .ok value ⟨items, Nat.le_of_succ_le h⟩

/-- Takes two values off and gives them in the order in which they were put there. If there is only
    one, it is gone. -/
def popTwo : Op capacity α (α × α) := do
  let second ← pop
  let first ← pop
  return (first, second)

theorem push_of_lt (value : α) (s : Stack capacity α) (h : s.items.length < capacity) :
    push value s = .ok () ⟨value :: s.items, h⟩ :=
  dif_pos h

theorem push_of_le (value : α) (s : Stack capacity α) (h : capacity ≤ s.items.length) :
    push value s = .error .stackOverflow s :=
  dif_neg (Nat.not_lt.2 h)

@[simp] theorem pop_nil (h : [].length ≤ capacity) :
    (pop : Op capacity α α) ⟨[], h⟩ = .error .stackUnderflow ⟨[], h⟩ := rfl

@[simp] theorem pop_cons (value : α) (items : List α) (h : (value :: items).length ≤ capacity) :
    pop ⟨value :: items, h⟩ = .ok value (⟨items, Nat.le_of_succ_le h⟩ : Stack capacity α) := rfl

/-- The values in brackets, the top one last. -/
def text (write : α → String) (s : Stack capacity α) : String :=
  "[" ++ ", ".intercalate (s.items.reverse.map write) ++ "]"

end Stack

end Abacus
