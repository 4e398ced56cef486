import Abacus.Notice
import Abacus.Proofs.Execution

namespace Abacus

/-!
# When a step fails

Whether an instruction fails, and why, depends on its form and on how many values are on the stack,
not on the values.

* `Instruction.failure?` — why an instruction fails with a number of values on the stack.
* `Instruction.cause?_effect`, `Machine.fails_iff` — so it does when it is carried out, and so does
  a step of the machine.
* `Machine.StepsAs` — all that a step does where a given instruction is decoded.
* `Machine.Steps.length_le` — every step goes on in the code, so there are no more steps than bytes.
* `Machine.step_followsDecode` — both for all chunks.
-/

/-! ### Instructions -/

/-- How many values an opcode takes off the stack. -/
def Opcode.takes : Opcode → Nat
  | constant => 0
  | negate | ret => 1
  | add | sub | mul | div => 2

/-- An opcode lacks a value if it takes one of none, or two of fewer. -/
theorem Opcode.lt_takes_iff {opcode : Opcode} {count : Nat} :
    count < opcode.takes ↔
      (opcode = .negate ∨ opcode = .ret) ∧ count = 0 ∨
        (∃ op : BinaryOp, opcode = op.opcode) ∧ count < 2 := by
  have hbinary : ∀ op : BinaryOp, op.opcode.takes = 2 := by
    intro op
    cases op <;> rfl
  constructor
  · intro h
    cases opcode with
    | constant => exact absurd h (Nat.not_lt_zero _)
    | negate => exact .inl ⟨.inl rfl, Nat.lt_one_iff.1 h⟩
    | ret => exact .inl ⟨.inr rfl, Nat.lt_one_iff.1 h⟩
    | add => exact .inr ⟨⟨.add, rfl⟩, h⟩
    | sub => exact .inr ⟨⟨.sub, rfl⟩, h⟩
    | mul => exact .inr ⟨⟨.mul, rfl⟩, h⟩
    | div => exact .inr ⟨⟨.div, rfl⟩, h⟩
  · rintro (⟨rfl | rfl, rfl⟩ | ⟨⟨op, rfl⟩, h⟩)
    · exact Nat.one_pos
    · exact Nat.one_pos
    · rw [hbinary]
      exact h

/-- Why an operation fails, if it does. -/
def cause? {σ β : Type} : EStateM.Result Fault.Cause σ β → Option Fault.Cause
  | .ok _ _ => none
  | .error cause _ => some cause

/-- There is a cause exactly if there is a failure. -/
theorem cause?_eq_some_iff {σ β : Type} {r : EStateM.Result Fault.Cause σ β} {cause : Fault.Cause} :
    cause? r = some cause ↔ ∃ s, r = .error cause s := by
  cases r <;> simp [cause?]

/-- There is none exactly if all went well. -/
theorem cause?_eq_none_iff {σ β : Type} {r : EStateM.Result Fault.Cause σ β} :
    cause? r = none ↔ ∃ b s, r = .ok b s := by
  cases r <;> simp [cause?]

namespace Instruction

/-- Why an instruction fails with a number of values on the stack, if it does. -/
def failure? (count : Nat) : Instruction → Option Fault.Cause
  | constant _ (some _) => if count < stackMax then none else some .stackOverflow
  | constant index none => some (.invalidConstant index)
  | simple .constant | truncated _ | pastEnd => some .endOfChunk
  | simple opcode => if count < opcode.takes then some .stackUnderflow else none
  | unknown byte => some (.unknownOpcode byte)

variable {i : Instruction} {count : Nat}

/-- The code ends too early where there is no instruction, or half of one. -/
theorem failure?_eq_endOfChunk_iff (h : i ≠ .simple .constant) :
    i.failure? count = some .endOfChunk ↔ i = .pastEnd ∨ ∃ opcode, i = .truncated opcode := by
  fun_cases failure? count i <;> simp_all

/-- Only a byte that belongs to no opcode is unknown. -/
theorem failure?_eq_unknownOpcode_iff {b : UInt8} :
    i.failure? count = some (.unknownOpcode b) ↔ i = .unknown b := by
  fun_cases failure? count i <;> simp_all

/-- Only a constant that is missing is invalid. -/
theorem failure?_eq_invalidConstant_iff {index : UInt8} :
    i.failure? count = some (.invalidConstant index) ↔ i = .constant index none := by
  fun_cases failure? count i <;> simp_all

/-- Only a constant overflows the stack, and only a full one. -/
theorem failure?_eq_stackOverflow_iff :
    i.failure? count = some .stackOverflow ↔
      (∃ index value, i = .constant index (some value)) ∧ stackMax ≤ count := by
  fun_cases failure? count i <;> simp_all

/-- Signs and returns lack a value on an empty stack, and operators if there are not two. -/
theorem failure?_eq_stackUnderflow_iff :
    i.failure? count = some .stackUnderflow ↔
      (i = .simple .negate ∨ i = .simple .ret) ∧ count = 0 ∨
        (∃ op : BinaryOp, i = .simple op.opcode) ∧ count < 2 := by
  have hsimple : i.failure? count = some .stackUnderflow ↔
      ∃ opcode, i = .simple opcode ∧ count < opcode.takes := by
    fun_cases failure? count i <;> simp_all [Opcode.takes]
  rw [hsimple]
  constructor
  · rintro ⟨opcode, rfl, hlt⟩
    simpa using Opcode.lt_takes_iff.1 hlt
  · rintro (⟨rfl | rfl, hcount⟩ | ⟨⟨op, rfl⟩, hcount⟩)
    · exact ⟨_, rfl, Opcode.lt_takes_iff.2 (.inl ⟨.inl rfl, hcount⟩)⟩
    · exact ⟨_, rfl, Opcode.lt_takes_iff.2 (.inl ⟨.inr rfl, hcount⟩)⟩
    · exact ⟨_, rfl, Opcode.lt_takes_iff.2 (.inr ⟨⟨op, rfl⟩, hcount⟩)⟩

end Instruction

/-- Two values are replaced by one if there are two. -/
theorem Stack.cause?_replaceTwo (f : Float → Float → Float) (s : Stack stackMax Float) :
    cause? (Stack.replaceTwo f s) = if s.length < 2 then some .stackUnderflow else none := by
  obtain ⟨items, hle⟩ := s
  match items with
  | [] => rfl
  | [_] => rfl
  | right :: left :: items =>
    -- The two values that were taken off leave room for the new one.
    have hroom : items.length < stackMax := Nat.lt_of_succ_lt hle
    have htwo : ¬ (right :: left :: items).length < 2 := by simp
    simp only [replaceTwo, popTwo, bind, EStateM.bind, pop_cons, pure, EStateM.pure]
    rw [push_of_lt (f left right) ⟨items, Nat.le_of_lt hroom⟩ hroom]
    exact (if_neg htwo).symm

/-- Carrying an instruction out fails as its form and the number of values tell. -/
theorem Instruction.cause?_effect (i : Instruction) (s : Stack stackMax Float) :
    cause? (i.effect s) = i.failure? s.length := by
  obtain ⟨items, hle⟩ := s
  cases i with
  | constant index value =>
    cases value with
    | none => rfl
    | some x =>
      by_cases hroom : items.length < stackMax
      · simp only [effect, bind, EStateM.bind, Stack.push_of_lt x ⟨items, hle⟩ hroom]
        exact (if_pos hroom).symm
      · simp only [effect, bind, EStateM.bind, Stack.push_of_le x ⟨items, hle⟩ (Nat.not_lt.1 hroom)]
        exact (if_neg hroom).symm
  | simple opcode =>
    cases opcode with
    | constant => rfl
    | negate =>
      cases items with
      | nil => rfl
      | cons value items =>
        have hroom : items.length < stackMax := Nat.lt_of_succ_le hle
        simp only [effect, bind, EStateM.bind, Stack.pop_cons]
        rw [Stack.push_of_lt (-value) ⟨items, Nat.le_of_lt hroom⟩ hroom]
        rfl
    | ret => cases items <;> rfl
    | _ => exact Stack.cause?_replaceTwo _ _
  | truncated _ => rfl
  | unknown _ => rfl
  | pastEnd => rfl

/-- An opcode with an operand is never decoded without it. -/
theorem Instruction.decode_ne_simple_constant (c : Chunk) (address : Nat) :
    (decode c address).1 ≠ .simple .constant := by
  obtain ⟨i, next, hi⟩ := exists_stands c address
  rw [hi.decode_eq]
  cases hi with
  | simple _ hne => simpa using hne
  | _ => simp

/-! ### Steps -/

namespace Machine

open Instruction

variable {chunk : Chunk} {m m' : Machine} {ms : List Machine} {cause : Fault.Cause}

/-- A step fails for a reason. -/
def Fails (chunk : Chunk) (m : Machine) (cause : Fault.Cause) : Prop :=
  ∃ m', step chunk m = .error cause m'

/-- Why a step fails is told by the instruction and by the number of values. -/
theorem cause?_step (chunk : Chunk) (m : Machine) :
    cause? (step chunk m) = (decode chunk m.address).1.failure? m.stack.length := by
  rw [← cause?_effect, step_eq_effect, onStack]
  cases (decode chunk m.address).1.effect m.stack <;> rfl

/-- A step fails as the instruction that is decoded tells. -/
theorem fails_iff :
    Fails chunk m cause ↔ (decode chunk m.address).1.failure? m.stack.length = some cause := by
  rw [← cause?_step, cause?_eq_some_iff]
  rfl

/-- Without a reason to fail, a step gives a value or goes on. -/
theorem exists_step_eq_ok (h : (decode chunk m.address).1.failure? m.stack.length = none) :
    ∃ v m', step chunk m = .ok v m' := by
  rw [← cause?_step] at h
  exact cause?_eq_none_iff.1 h

/-- What a step of the machine does where an instruction is decoded, and the next one begins behind
    it. For each reason to fail it is told exactly when the step fails for it; otherwise the values
    on the stack are replaced or the top one is returned. -/
structure StepsAs (chunk : Chunk) (m : Machine) (i : Instruction) (next : Nat) : Prop where
  ended : Fails chunk m .endOfChunk ↔ i = .pastEnd ∨ ∃ opcode, i = .truncated opcode
  unknown : ∀ b, Fails chunk m (.unknownOpcode b) ↔ i = .unknown b
  missing : ∀ index, Fails chunk m (.invalidConstant index) ↔ i = .constant index none
  overflow : Fails chunk m .stackOverflow ↔
    (∃ index value, i = .constant index (some value)) ∧ m.stack.length = stackMax
  underflow : Fails chunk m .stackUnderflow ↔
    (i = .simple .negate ∨ i = .simple .ret) ∧ m.stack.length = 0 ∨
      (∃ op : BinaryOp, i = .simple op.opcode) ∧ m.stack.length < 2
  pushes : ∀ index value, i = .constant index (some value) → m.stack.length < stackMax →
    Goes chunk m next (value :: m.stack.items)
  negates : ∀ value items, i = .simple .negate → m.stack.items = value :: items →
    Goes chunk m next (-value :: items)
  combines : ∀ (op : BinaryOp) first second items, i = .simple op.opcode →
    m.stack.items = first :: second :: items → Goes chunk m next (op.apply second first :: items)
  returns : ∀ value items, i = .simple .ret → m.stack.items = value :: items →
    ∃ m', step chunk m = .ok (some value) m' ∧ m'.stack.items = items
  goesOn : ∀ m', step chunk m = .ok none m' →
    m'.address = next ∧ m.address < next ∧ m'.stack.length ≤ stackMax
  complete : i ≠ .simple .constant

/-- Every step does what the instruction at its address stands for. -/
theorem stepsAs_decode (chunk : Chunk) (m : Machine) :
    StepsAs chunk m (decode chunk m.address).1 (decode chunk m.address).2 where
  ended := fails_iff.trans (failure?_eq_endOfChunk_iff (decode_ne_simple_constant _ _))
  unknown _ := fails_iff.trans failure?_eq_unknownOpcode_iff
  missing _ := fails_iff.trans failure?_eq_invalidConstant_iff
  overflow := by
    have hle : m.stack.length ≤ stackMax := m.stack.length_le
    rw [fails_iff, failure?_eq_stackOverflow_iff, Nat.le_antisymm_iff, and_iff_right hle]
  underflow := fails_iff.trans failure?_eq_stackUnderflow_iff
  pushes _ _ hi hroom := goes_constant (Prod.ext hi rfl) hroom
  negates _ _ hi hitems := goes_negate (Prod.ext hi rfl) hitems
  combines op _ _ _ hi hitems := goes_binary op (Prod.ext hi rfl) hitems
  returns _ _ hi hitems := step_ret (Prod.ext hi rfl) hitems
  goesOn m' h := by
    have haddress := address_of_step h
    rw [← haddress]
    exact ⟨rfl, (address_lt_of_step h).2, m'.stack.length_le⟩
  complete := decode_ne_simple_constant _ _

/-! ### Runs -/

/-- Every step goes on by a byte at least. -/
theorem Steps.length_le (h : Steps chunk m ms m') : m.address + ms.length ≤ m'.address := by
  induction h with
  | refl => exact Nat.le_refl _
  | cons hstep _ ih =>
    have hlt := (address_lt_of_step hstep).2
    rw [List.length_cons]
    omega

/-- **What a step does is told by the instruction that is decoded,** whatever the bytes, the address
    and the values on the stack are. So a run, whatever the machine ran before, ends after one step
    more than there are bytes at most, and a fault is reported at the address of the instruction
    that fails. -/
theorem step_followsDecode (chunk : Chunk) :
    (∀ m : Machine, StepsAs chunk m (decode chunk m.address).1 (decode chunk m.address).2) ∧
    (∀ b, (Fault.Cause.unknownOpcode b).notice
      = { category := .unknownOpcode, text := "byte " ++ toString b.toNat }) ∧
    (∀ index, (Fault.Cause.invalidConstant index).notice
      = { category := .invalidConstant, text := "index " ++ toString index.toNat }) ∧
    ∀ m : Machine, ∃ ms last, Steps chunk .initial ms last ∧
      (m.run chunk).visited = ms ++ [last] ∧ ms.length + 1 ≤ chunk.length + 1 ∧
      (∀ value, (m.run chunk).result = .ok value → ∃ m', step chunk last = .ok (some value) m') ∧
      ∀ fault, (m.run chunk).result = .error fault →
        fault.offset = last.address ∧ Fails chunk last fault.cause := by
  refine ⟨stepsAs_decode chunk, fun _ => rfl, fun _ => rfl, ?_⟩
  intro m
  obtain ⟨ms, last, hsteps, hvisited, hends⟩ := exists_steps_runFrom chunk .initial
  have hcount : 0 + ms.length ≤ last.address := hsteps.length_le
  have hend : last.address ≤ chunk.length := hsteps.address_le (Nat.zero_le _)
  refine ⟨ms, last, hsteps, hvisited, by omega, ?_, ?_⟩
  · intro value hvalue
    have hends' : Ends chunk last (.ok value) := hvalue ▸ hends
    exact hends'
  · intro fault hfault
    have hends' : Ends chunk last (.error fault) := hfault ▸ hends
    exact hends'

end Machine

end Abacus
