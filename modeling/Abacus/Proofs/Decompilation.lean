import Abacus.Proofs.Preservation

namespace Abacus

/-!
# Code can be read back

The code of a tree is read byte by byte from the left, with a stack of the trees that are finished.
Since the byte behind the opcode of a constant is an index, whatever it is, the reader remembers
that it awaits one.

* `Expr.readByte` — one step of the reader; `Expr.foldl_readByte` says that it finds the tree again.
* `Expr.code_injective` — so no two trees have the same code.
* `Chunk.IsCodeOf.eq_iff` — and chunks are the same exactly if the trees are that they are code of.
-/

namespace Expr

/-- Reads a byte of code. The flag tells whether the byte before it awaits an index, and the trees
    are those that wait on the stack. -/
def readByte : Bool × List (Expr UInt8) → UInt8 → Bool × List (Expr UInt8)
  | (true, stack), index => (false, number index :: stack)
  | (false, stack), byte =>
    match Opcode.ofByte? byte, stack with
    | some .constant, stack => (true, stack)
    | some .negate, e :: stack => (false, negate e :: stack)
    | some .add, r :: l :: stack => (false, binary .add l r :: stack)
    | some .sub, r :: l :: stack => (false, binary .sub l r :: stack)
    | some .mul, r :: l :: stack => (false, binary .mul l r :: stack)
    | some .div, r :: l :: stack => (false, binary .div l r :: stack)
    | _, stack => (false, stack)

/-- Reading the code of a tree puts the tree on top of the stack. -/
theorem foldl_readByte (e : Expr UInt8) (stack : List (Expr UInt8)) :
    e.code.foldl readByte (false, stack) = (false, e :: stack) := by
  induction e generalizing stack with
  | number index => rfl
  | negate e ih =>
    rw [code, List.foldl_append, ih]
    rfl
  | binary op l r ihl ihr =>
    -- The right operand is on top of the left one when the operator is read.
    rw [code, List.foldl_append, List.foldl_append, ihl, ihr]
    cases op <;> rfl

/-- No two trees have the same code. -/
theorem code_injective {e e' : Expr UInt8} (h : e.code = e'.code) : e = e' := by
  have hread := e.foldl_readByte []
  rw [h, e'.foldl_readByte] at hread
  simpa using hread.symm

/-- Trees are told apart by their literals after an injective change. -/
theorem map_injective {α β : Type} {f : α → β} (hf : ∀ a b, f a = f b → a = b) {e e' : Expr α}
    (h : e.map f = e'.map f) : e = e' := by
  induction e generalizing e' with
  | number a =>
    cases e' with
    | number b =>
      injection h with h
      rw [hf a b h]
    | _ => cases h
  | negate e ih =>
    cases e' with
    | negate e' =>
      injection h with h
      rw [ih h]
    | _ => cases h
  | binary op l r ihl ihr =>
    cases e' with
    | binary op' l' r' =>
      injection h with hop hl hr
      rw [hop, ihl hl, ihr hr]
    | _ => cases h

end Expr

/-- A number is known by its bits. -/
theorem eq_of_toBits_eq : ∀ x y : Float, x.toBits = y.toBits → x = y
  | ⟨⟨_, _⟩⟩, ⟨⟨_, _⟩⟩, h => by
    cases h
    rfl

namespace Chunk.IsCodeOf

variable {c c' : Chunk} {x y : Expr Float}

/-- The tree of a chunk can be read back: the code tells the tree of indices, and the constants what
    is at these. -/
theorem unique (h : c.IsCodeOf x) (h' : c.IsCodeOf y) (hx : x.literals.length ≤ constantMax)
    (hy : y.literals.length ≤ constantMax) : x = y := by
  have hcode : (x.indexed 0).code = (y.indexed 0).code :=
    List.append_cancel_right (h.code.symm.trans h'.code)
  have hmap := h.map_indexed hx
  rw [Expr.code_injective hcode, h'.map_indexed hy] at hmap
  exact (Expr.map_injective (fun _ _ => Option.some.inj) hmap).symm

/-- A tree has only one code. -/
theorem eq_of_tree_eq (h : c.IsCodeOf x) (h' : c'.IsCodeOf x) : c = c' := by
  have hcode : c.code = c'.code := Array.toList_inj.1 (h.code.trans h'.code.symm)
  have hconstants : c.constants = c'.constants :=
    Array.toList_inj.1 (h.constants.trans h'.constants.symm)
  rw [Chunk.mk.injEq]
  exact ⟨hcode, hconstants⟩

/-- Chunks are the same, bit by bit, exactly if their trees are. -/
theorem eq_iff (h : c.IsCodeOf x) (h' : c'.IsCodeOf y) (hx : x.literals.length ≤ constantMax)
    (hy : y.literals.length ≤ constantMax) :
    c.code = c'.code ∧ c.constants.map Float.toBits = c'.constants.map Float.toBits ↔ x = y := by
  constructor
  · rintro ⟨hcode, hbits⟩
    have hconstants := (Array.map_inj_right eq_of_toBits_eq).1 hbits
    have hsame : c = c' := by
      rw [Chunk.mk.injEq]
      exact ⟨hcode, hconstants⟩
    exact h.unique (hsame ▸ h') hx hy
  · rintro rfl
    rw [h.eq_of_tree_eq h']
    exact ⟨rfl, rfl⟩

end Chunk.IsCodeOf

end Abacus
