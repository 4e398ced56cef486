import Abacus.Proofs.Acceptance

namespace Abacus

/-!
# Compiling behind other code

Compiling at the end of a chunk that is not empty writes what compiling into a new chunk writes,
with the indices of constants counted on from those that were there. Both go through the same
actions, and only the room for constants tells them apart.

* `Relocated offset code moved` — `moved` is `code` with every index of a constant raised by
  `offset`.
* `Expr.relocated_code` — so the code of a tree is moved by counting its literals from elsewhere.
* `Assembly.InStep a b` — in `a` and in `b` the same operands wait and the same was found wrong,
  apart from constants without room; `InStep.performAll` — actions keep it so.
* `compileInto_relocation` — what this means for source texts.
-/

/-! ### Moved code -/

/-- Code whose indices of constants are raised by a number, as numbers: none runs over. -/
inductive Relocated (offset : Nat) : List UInt8 → List UInt8 → Prop where
  | nil : Relocated offset [] []
  | constant {index index' : UInt8} {code moved : List UInt8} :
      index'.toNat = index.toNat + offset → Relocated offset code moved →
        Relocated offset (Opcode.constant.byte :: index :: code)
          (Opcode.constant.byte :: index' :: moved)
  | simple {opcode : Opcode} {code moved : List UInt8} :
      opcode ≠ .constant → Relocated offset code moved →
        Relocated offset (opcode.byte :: code) (opcode.byte :: moved)

theorem Relocated.append {offset : Nat} {code moved code' moved' : List UInt8}
    (h : Relocated offset code moved) (h' : Relocated offset code' moved') :
    Relocated offset (code ++ code') (moved ++ moved') := by
  induction h with
  | nil => exact h'
  | constant hi _ ih => exact .constant hi ih
  | simple ho _ ih => exact .simple ho ih

/-- An instruction without an operand does not change when it is moved. -/
theorem Relocated.single {offset : Nat} {opcode : Opcode} (h : opcode ≠ .constant) :
    Relocated offset [opcode.byte] [opcode.byte] :=
  .simple h .nil

/-- Counting the literals of a tree from a later index moves its code. -/
theorem Expr.relocated_code {α : Type} (x : Expr α) {first offset : Nat}
    (h : offset + first + x.literals.length ≤ constantMax) :
    Relocated offset (x.indexed first).code (x.indexed (offset + first)).code := by
  induction x generalizing first with
  | number a =>
    have hfits : offset + first < constantMax := Nat.lt_of_succ_le h
    refine .constant ?_ .nil
    rw [toNat_operandByte, toNat_operandByte, if_pos hfits, if_pos (by omega), Nat.add_comm]
  | negate x ih => exact (ih h).append (.single (by decide))
  | binary op l r ihl ihr =>
    rw [literals, List.length_append] at h
    have hr := ihr (show offset + (first + l.literals.length) + r.literals.length ≤ _ by omega)
    rw [← Nat.add_assoc] at hr
    exact ((ihl (by omega)).append hr).append (.single op.opcode_ne_constant)

/-- A chunk is another one with the code and the constants of a third behind its own. -/
structure Chunk.Relocates (c fresh c' : Chunk) : Prop where
  constants : c'.constants.toList = c.constants.toList ++ fresh.constants.toList
  code : ∃ moved, c'.code.toList = c.code.toList ++ moved ∧
    Relocated c.constants.size fresh.code.toList moved

/-! ### Two compilations in step -/

/-- Diagnostics without those about constants for which there is no room. -/
def withoutTooMany (ds : List Diagnostic) : List Diagnostic :=
  ds.filter (·.cause ≠ .grammatical .tooManyConstants)

@[simp] theorem withoutTooMany_append (ds es : List Diagnostic) :
    withoutTooMany (ds ++ es) = withoutTooMany ds ++ withoutTooMany es :=
  List.filter_append ..

namespace Assembly

/-- Two chunks in the making have the same operands waiting, and the same was found wrong with
    them, apart from constants for which there is no room. -/
structure InStep (a b : Assembly) : Prop where
  pending : a.pending = b.pending
  diagnostics : withoutTooMany a.diagnostics.toList = withoutTooMany b.diagnostics.toList

/-- What is said about an action depends on the chunk only where a constant has no room. -/
theorem withoutTooMany_remarks {a b : Assembly} (h : a.pending = b.pending) (action : Action) :
    withoutTooMany (a.remarks action) = withoutTooMany (b.remarks action) := by
  have droppable : ∀ (fits : Prop) [Decidable fits] (position : Position),
      withoutTooMany (if fits then [] else [⟨.grammatical .tooManyConstants, position⟩]) = [] := by
    intro fits _ position
    split <;> rfl
  cases action with
  | literal t =>
    rw [remarks, remarks, h]
    split
    · rw [withoutTooMany_append, withoutTooMany_append, droppable, droppable]
    · rfl
  | _ => rfl

/-- An action changes the count of waiting values alike, whatever chunk there is. -/
theorem pending_perform {a b : Assembly} (h : a.pending = b.pending) (action : Action) :
    (a.perform action).pending = (b.perform action).pending := by
  cases action with
  | scan t =>
    rw [perform, perform]
    split <;> exact h
  | literal t =>
    rw [perform, perform]
    split
    · rw [constant_pending, constant_pending, h]
    · exact h
  | merge => exact congrArg (· - 1) h
  | _ => exact h

/-- One action keeps two chunks in step. -/
theorem InStep.perform {a b : Assembly} (h : InStep a b) (action : Action) :
    InStep (a.perform action) (b.perform action) where
  pending := pending_perform h.pending action
  diagnostics := by
    rw [perform_diagnostics, perform_diagnostics, withoutTooMany_append, withoutTooMany_append,
      h.diagnostics, withoutTooMany_remarks h.pending]

/-- So do any actions, whatever is found wrong on the way. -/
theorem InStep.performAll {a b : Assembly} (h : InStep a b) (as : List Action) :
    InStep (a.performAll as) (b.performAll as) := by
  induction as generalizing a b with
  | nil => exact h
  | cons action as ih => exact ih (h.perform action)

end Assembly

/-! ### Source texts -/

/-- A source text compiles at the end of a chunk exactly if it compiles and the constants of both
    find room. -/
theorem quiet_parse_iff_exists_compile (c : Chunk) (source : String) :
    Assembly.Quiet { chunk := c } (parse (scan source)) ↔
      ∃ fresh, compile source = .ok fresh ∧
        c.constants.size + fresh.constants.size ≤ constantMax := by
  constructor
  · intro hquiet
    obtain ⟨hflaws, e, x, d, hlevel, hx⟩ := exists_derives_of_quiet hquiet
    have hroom := (quiet_parse_iff_room hflaws d hlevel hx c).1 hquiet
    obtain ⟨hquiet', hcode⟩ := quiet_parse_iff hflaws d hlevel hx
    refine ⟨_, compile_eq_ok_iff.2 ⟨hquiet'.2 (by omega), rfl⟩, ?_⟩
    show c.constants.size
        + (Assembly.performAll { chunk := .empty } (parse (scan source))).chunk.constants.size ≤ _
    rw [hcode.size_constants]
    exact hroom
  · rintro ⟨fresh, hcompile, hroom⟩
    obtain ⟨hflaws, e, x, d, hlevel, hx, -, hcode⟩ := exists_isCodeOf_of_compile hcompile
    rw [hcode.size_constants] at hroom
    exact (quiet_parse_iff_room hflaws d hlevel hx c).2 hroom

/-- What compiles into a new chunk is moved behind the code of another one. -/
theorem relocates_of_compile {c fresh : Chunk} {source : String}
    (h : compile source = .ok fresh)
    (hroom : c.constants.size + fresh.constants.size ≤ constantMax) :
    c.Relocates fresh (compileInto c source).chunk := by
  obtain ⟨hflaws, e, x, d, hlevel, hx, -, hfresh⟩ := exists_isCodeOf_of_compile h
  obtain ⟨hconstants, hcode⟩ := performAll_parse_chunk hflaws d hlevel hx c
  rw [hfresh.size_constants] at hroom
  have hmoved := x.relocated_code (show c.constants.size + 0 + x.literals.length ≤ _ from hroom)
  refine ⟨?_, _, hcode, ?_⟩
  · rw [hfresh.constants]
    exact hconstants
  · rw [hfresh.code]
    exact hmoved.append (.single (by decide))

/-- **Compiling behind other code is relocation.** A source text compiles at the end of a chunk
    exactly if it compiles into a new one and there is room for the constants of both, and then the
    new code is moved behind the old. Whether or not it compiles, the same is found wrong, apart
    from constants for which there is no room. -/
theorem compileInto_relocation (c : Chunk) (source : String) :
    ((compileInto c source).diagnostics = [] ↔
      ∃ fresh, compile source = .ok fresh ∧
        c.constants.size + fresh.constants.size ≤ constantMax) ∧
    (∀ fresh, compile source = .ok fresh →
      c.constants.size + fresh.constants.size ≤ constantMax →
        c.Relocates fresh (compileInto c source).chunk) ∧
    withoutTooMany (compileInto c source).diagnostics
      = withoutTooMany (compileInto .empty source).diagnostics := by
  refine ⟨quiet_parse_iff_exists_compile c source, fun _ => relocates_of_compile, ?_⟩
  have hstart : Assembly.InStep { chunk := c } { chunk := .empty } := ⟨rfl, rfl⟩
  exact (hstart.performAll (parse (scan source))).diagnostics

end Abacus
