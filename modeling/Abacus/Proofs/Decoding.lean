import Abacus.Instruction
import Abacus.Machine

namespace Abacus

/-!
# Decoding

* `Chunk.Holds c a bytes` — the code of `c` has `bytes` from the address `a` on.
* `Instruction.encode` — the bytes of an instruction.
* `Instruction.ProperIn` — an instruction that the machine can carry out.
* `Instruction.Stands` — all that can stand at an address; `Stands.decode_eq`, `exists_stands` — it
  is what is decoded there.
* `decode_of_holds`, `listingFrom_of_holds` — what was encoded is decoded again.
* `Instruction.effect` — what an instruction does to the stack.
* `Machine.step_eq_effect` — a step of the machine is the effect of the instruction that is decoded.
* `Machine.decode_of_step_some`, `Machine.decode_of_step_none` — it gives a value exactly at a
  return.
-/

/-! ### Code at an address -/

/-- The code has some bytes from an address on. -/
def Chunk.Holds (c : Chunk) : (address : Nat) → (bytes : List UInt8) → Prop
  | _, [] => True
  | address, b :: bytes => c.byte? address = some b ∧ c.Holds (address + 1) bytes

namespace Chunk

@[simp] theorem holds_nil (c : Chunk) (address : Nat) : c.Holds address [] := trivial

@[simp] theorem holds_cons (c : Chunk) (address : Nat) (b : UInt8) (bytes : List UInt8) :
    c.Holds address (b :: bytes) ↔ c.byte? address = some b ∧ c.Holds (address + 1) bytes :=
  Iff.rfl

/-- Bytes that follow each other stand at an address and behind it. -/
theorem holds_append (c : Chunk) (address : Nat) (bytes more : List UInt8) :
    c.Holds address (bytes ++ more) ↔
      c.Holds address bytes ∧ c.Holds (address + bytes.length) more := by
  induction bytes generalizing address with
  | nil => simp
  | cons b bytes ih =>
    rw [List.cons_append, holds_cons, holds_cons, ih, List.length_cons, and_assoc,
      Nat.add_assoc address 1, Nat.add_comm 1]

/-- Bytes in the middle of the code stand where those before them end. -/
theorem holds_of_code_eq {c : Chunk} {before bytes after : List UInt8}
    (h : c.code.toList = before ++ (bytes ++ after)) : c.Holds before.length bytes := by
  induction bytes generalizing before with
  | nil => trivial
  | cons b bytes ih =>
    constructor
    · rw [byte?, ← Array.getElem?_toList, h, List.getElem?_append_right (Nat.le_refl _),
        Nat.sub_self]
      rfl
    · have h' : c.code.toList = (before ++ [b]) ++ (bytes ++ after) := by
        rw [h, List.append_assoc]
        rfl
      have hb := ih h'
      rw [List.length_append] at hb
      exact hb

end Chunk

/-! ### Instructions -/

namespace Instruction

/-- The bytes of an instruction. -/
def encode : Instruction → List UInt8
  | constant index _ => [Opcode.constant.byte, index]
  | simple opcode => [opcode.byte]
  | truncated opcode => [opcode.byte]
  | unknown byte => [byte]
  | pastEnd => []

/-- The index of the constant that an instruction pushes. -/
def operand? : Instruction → Option UInt8
  | constant index _ => some index
  | simple _ | truncated _ | unknown _ | pastEnd => none

/-- An instruction that can be carried out in a chunk: its constant is there. -/
def ProperIn (c : Chunk) : Instruction → Prop
  | constant index value => value ≠ none ∧ c.constant? index.toNat = value
  | simple opcode => opcode ≠ .constant
  | truncated _ | unknown _ | pastEnd => False

/-- Instructions one after the other, each with its address. -/
def place : (address : Nat) → List Instruction → List (Nat × Instruction)
  | _, [] => []
  | address, i :: is => (address, i) :: place (address + i.encode.length) is

/-- The instructions of a second row are placed behind the bytes of the first. -/
@[simp] theorem place_append (address : Nat) (is js : List Instruction) :
    place address (is ++ js)
      = place address is ++ place (address + (is.flatMap encode).length) js := by
  induction is generalizing address with
  | nil => rfl
  | cons i is ih =>
    rw [List.cons_append, place, place, ih, List.flatMap_cons, List.length_append, Nat.add_assoc]
    rfl

@[simp] theorem map_snd_place (address : Nat) (is : List Instruction) :
    (place address is).map (·.2) = is := by
  induction is generalizing address with
  | nil => rfl
  | cons i is ih => rw [place, List.map_cons, ih]

/-- A proper instruction has at least one byte. -/
theorem ProperIn.encode_pos {c : Chunk} {i : Instruction} (h : i.ProperIn c) :
    0 < i.encode.length := by
  cases i with
  | pastEnd => exact h.elim
  | _ => simp [encode]

/-- An opcode for a constant and an index are decoded as the constant at the index. -/
theorem decode_constant {c : Chunk} {address : Nat} {index : UInt8}
    (h : c.Holds address [Opcode.constant.byte, index]) :
    decode c address = (constant index (c.constant? index.toNat), address + 2) := by
  simp only [decode, h.1, Opcode.ofByte?_byte, h.2.1]

/-- Any other opcode is decoded as an instruction without an operand. -/
theorem decode_simple {c : Chunk} {address : Nat} {opcode : Opcode}
    (h : c.byte? address = some opcode.byte) (ho : opcode ≠ .constant) :
    decode c address = (simple opcode, address + 1) := by
  simp only [decode, h, Opcode.ofByte?_byte]
  cases opcode with
  | constant => exact absurd rfl ho
  | _ => rfl

/-- What stands at an address, and where the next instruction begins: one rule for each thing that
    can be decoded. -/
inductive Stands (c : Chunk) (address : Nat) : Instruction → Nat → Prop where
  | pastEnd : c.byte? address = none → Stands c address .pastEnd address
  | unknown {b : UInt8} : c.byte? address = some b → Opcode.ofByte? b = none →
      Stands c address (.unknown b) (address + 1)
  | truncated : c.byte? address = some Opcode.constant.byte → c.byte? (address + 1) = none →
      Stands c address (.truncated .constant) (address + 1)
  | constant {index : UInt8} : c.Holds address [Opcode.constant.byte, index] →
      Stands c address (.constant index (c.constant? index.toNat)) (address + 2)
  | simple {opcode : Opcode} : c.byte? address = some opcode.byte → opcode ≠ .constant →
      Stands c address (.simple opcode) (address + 1)

/-- What stands at an address is decoded there. -/
theorem Stands.decode_eq {c : Chunk} {address next : Nat} {i : Instruction}
    (h : Stands c address i next) : decode c address = (i, next) := by
  cases h with
  | pastEnd hb => simp only [decode, hb]
  | unknown hb ho => simp only [decode, hb, ho]
  | truncated hb hi => simp only [decode, hb, Opcode.ofByte?_byte, hi]
  | constant hcode => exact decode_constant hcode
  | simple hb hc => exact decode_simple hb hc

/-- At every address there stands something. -/
theorem exists_stands (c : Chunk) (address : Nat) : ∃ i next, Stands c address i next := by
  cases hb : c.byte? address with
  | none => exact ⟨_, _, .pastEnd hb⟩
  | some b =>
    cases ho : Opcode.ofByte? b with
    | none => exact ⟨_, _, .unknown hb ho⟩
    | some opcode =>
      obtain rfl := Opcode.byte_eq_of_ofByte? ho
      by_cases hc : opcode = .constant
      · subst hc
        cases hi : c.byte? (address + 1) with
        | none => exact ⟨_, _, .truncated hb hi⟩
        | some index => exact ⟨_, _, .constant ⟨hb, hi, trivial⟩⟩
      · exact ⟨_, _, .simple hb hc⟩

/-- An instruction of a chunk as it is in another one with the same code: a constant is looked up
    there. -/
def withConstantsOf (c : Chunk) : Instruction → Instruction
  | constant index _ => constant index (c.constant? index.toNat)
  | simple opcode => simple opcode
  | truncated opcode => truncated opcode
  | unknown byte => unknown byte
  | pastEnd => pastEnd

/-- Where the code is the same, so are the instructions, up to the constants. -/
theorem Stands.withConstantsOf {c c' : Chunk} {address next : Nat} {i : Instruction}
    (h : Stands c address i next) (hcode : c'.code = c.code) :
    Stands c' address (i.withConstantsOf c') next := by
  have hbyte : ∀ a, c'.byte? a = c.byte? a := by
    intro a
    rw [Chunk.byte?, Chunk.byte?, hcode]
  cases h with
  | pastEnd hb => exact .pastEnd ((hbyte _).trans hb)
  | unknown hb ho => exact .unknown ((hbyte _).trans hb) ho
  | truncated hb hi => exact .truncated ((hbyte _).trans hb) ((hbyte _).trans hi)
  | constant hholds =>
    exact .constant ⟨(hbyte _).trans hholds.1, (hbyte _).trans hholds.2.1, trivial⟩
  | simple hb hc => exact .simple ((hbyte _).trans hb) hc

/-- The next instruction begins within the code, or at its end. -/
theorem decode_next_le {c : Chunk} {address : Nat} (h : address < c.length) :
    (decode c address).2 ≤ c.length := by
  obtain ⟨i, next, hi⟩ := exists_stands c address
  rw [hi.decode_eq]
  cases hi with
  | pastEnd _ => exact Nat.le_of_lt h
  | constant hcode => exact Chunk.lt_length_of_byte? hcode.2.1
  | _ => exact h

/-- The instruction that stands at an address is decoded there. -/
theorem decode_of_holds {c : Chunk} {address : Nat} {i : Instruction} (hp : i.ProperIn c)
    (h : c.Holds address i.encode) : decode c address = (i, address + i.encode.length) := by
  cases i with
  | constant index value => rw [decode_constant h, hp.2]; rfl
  | simple opcode => exact decode_simple h.1 hp
  | truncated _ => exact hp.elim
  | unknown _ => exact hp.elim
  | pastEnd => exact hp.elim

end Instruction

open Instruction in
/-- The instructions that stand from an address up to the end are listed from there. -/
theorem Chunk.listingFrom_of_holds {c : Chunk} {address : Nat} {is : List Instruction}
    (hp : ∀ i ∈ is, i.ProperIn c) (h : c.Holds address (is.flatMap encode))
    (hend : address + (is.flatMap encode).length = c.length) :
    c.listingFrom address = place address is := by
  induction is generalizing address with
  | nil => exact listingFrom_of_le (Nat.le_of_eq hend.symm)
  | cons i is ih =>
    have hi := hp i (List.mem_cons_self ..)
    have hpos := hi.encode_pos
    rw [List.flatMap_cons, holds_append] at h
    rw [List.flatMap_cons, List.length_append] at hend
    have hnext := ih (fun j hj => hp j (List.mem_cons_of_mem _ hj)) h.2 (by omega)
    rw [listingFrom_of_lt (by omega), decode_of_holds hi h.1, hnext]
    rfl

/-! ### What instructions do to a stack -/

/-- Replaces the two values on top of a stack by one. -/
def Stack.replaceTwo (f : Float → Float → Float) : Stack.Op stackMax Float (Option Float) := do
  let (left, right) ← Stack.popTwo
  Stack.push (f left right)
  return none

/-- What an instruction does to the stack of the machine. Only a return gives a value. -/
def Instruction.effect : Instruction → Stack.Op stackMax Float (Option Float)
  | .constant _ (some value) => do
    Stack.push value
    return none
  | .constant index none => throw (.invalidConstant index)
  | .simple .negate => do
    let value ← Stack.pop
    Stack.push (-value)
    return none
  | .simple .add => Stack.replaceTwo (· + ·)
  | .simple .sub => Stack.replaceTwo (· - ·)
  | .simple .mul => Stack.replaceTwo (· * ·)
  | .simple .div => Stack.replaceTwo (· / ·)
  | .simple .ret => do
    let value ← Stack.pop
    return some value
  | .simple .constant | .truncated _ | .pastEnd => throw .endOfChunk
  | .unknown byte => throw (.unknownOpcode byte)

/-- An operation on the stack that gives no value. -/
def Stack.GivesNothing (op : Stack.Op stackMax Float (Option Float)) : Prop :=
  ∀ ⦃s s' : Stack stackMax Float⦄ ⦃v : Option Float⦄, op s = .ok v s' → v = none

namespace Stack.GivesNothing

theorem pure_none : GivesNothing (pure none) := by
  intro s s' v h
  injection h with h _
  exact h.symm

theorem throw (cause : Fault.Cause) : GivesNothing (throw cause) := by
  intro s s' v h
  cases h

/-- Going on gives no value if what comes last gives none. -/
theorem bind {β : Type} (op : Stack.Op stackMax Float β)
    {f : β → Stack.Op stackMax Float (Option Float)} (hf : ∀ b, GivesNothing (f b)) :
    GivesNothing (op >>= f) := by
  intro s s' v h
  simp only [Bind.bind, EStateM.bind] at h
  split at h
  · exact hf _ h
  · cases h

/-- All instructions but the return only change the stack. -/
theorem effect {i : Instruction} (h : i ≠ .simple .ret) : GivesNothing i.effect := by
  cases i with
  | constant index value =>
    cases value with
    | none => exact throw _
    | some x => exact bind _ fun _ => pure_none
  | simple opcode =>
    cases opcode with
    | constant => exact throw _
    | negate => exact bind _ fun _ => bind _ fun _ => pure_none
    | ret => exact absurd rfl h
    | _ => exact bind _ fun _ => bind _ fun _ => pure_none
  | truncated _ => exact throw _
  | unknown _ => exact throw _
  | pastEnd => exact throw _

end Stack.GivesNothing

namespace Machine

open Instruction

variable {β γ : Type} {m m' : Machine}

theorem bind_of_ok {op : Op β} {b : β} (h : op m = .ok b m') (f : β → Op γ) :
    (op >>= f) m = f b m' := by
  simp only [bind, EStateM.bind, h]

theorem bind_of_error {op : Op β} {cause : Fault.Cause} (h : op m = .error cause m')
    (f : β → Op γ) : (op >>= f) m = .error cause m' := by
  simp only [bind, EStateM.bind, h]

/-- Operations on the stack can be put together before they are done by the machine. -/
theorem onStack_bind (op : Stack.Op stackMax Float β) (f : β → Stack.Op stackMax Float γ) :
    onStack (op >>= f) = onStack op >>= fun b => onStack (f b) := by
  funext m
  simp only [onStack, bind, EStateM.bind]
  cases op m.stack <;> rfl

theorem onStack_pure (b : β) : onStack (pure b) = (pure b : Op β) := rfl

/-- An operator is an operation on the stack. -/
theorem binary_eq_onStack (f : Float → Float → Float) :
    (do binary f; return none : Op (Option Float)) = onStack (Stack.replaceTwo f) := by
  simp only [binary, Stack.replaceTwo, onStack_bind, onStack_pure, bind_assoc]

/-- An opcode without an operand only works on the stack. -/
theorem execute_eq_onStack (chunk : Chunk) {opcode : Opcode} (h : opcode ≠ .constant) :
    execute chunk opcode = onStack (simple opcode).effect := by
  cases opcode with
  | constant => exact absurd rfl h
  | negate => simp only [execute, effect, onStack_bind, onStack_pure]
  | ret => simp only [execute, effect, onStack_bind, onStack_pure]
  | _ => exact binary_eq_onStack _

theorem fetch_of_some {chunk : Chunk} {b : UInt8} (h : chunk.byte? m.address = some b) :
    fetch chunk m = .ok b { m with address := m.address + 1 } := by
  simp only [fetch, h]

theorem fetch_of_none {chunk : Chunk} (h : chunk.byte? m.address = none) :
    fetch chunk m = .error .endOfChunk m := by
  simp only [fetch, h]

/-- A step reads the instruction at its address and lets it work on the stack. -/
theorem step_eq_effect (chunk : Chunk) (m : Machine) :
    step chunk m = onStack (decode chunk m.address).1.effect
      { m with address := (decode chunk m.address).2 } := by
  obtain ⟨i, next, hi⟩ := exists_stands chunk m.address
  rw [hi.decode_eq]
  cases hi with
  | pastEnd hb =>
    -- Behind the code, there is no opcode to read.
    rw [step, bind_of_error (fetch_of_none hb)]
    rfl
  | unknown hb ho =>
    rw [step, bind_of_ok (fetch_of_some hb), ho]
    rfl
  | truncated hb hi =>
    -- The step reads the operand byte too, which is missing.
    rw [step, bind_of_ok (fetch_of_some hb), Opcode.ofByte?_byte]
    exact bind_of_error (fetch_of_none hi) _
  | @constant index hcode =>
    rw [step, bind_of_ok (fetch_of_some hcode.1), Opcode.ofByte?_byte]
    refine (bind_of_ok (fetch_of_some hcode.2.1) _).trans ?_
    cases chunk.constant? index.toNat with
    | none => rfl
    | some value => simp only [effect, onStack_bind, onStack_pure]
  | simple hb hc =>
    rw [step, bind_of_ok (fetch_of_some hb), Opcode.ofByte?_byte]
    exact congrFun (execute_eq_onStack chunk hc) _

/-- A step that goes on goes on behind the instruction. -/
theorem address_of_step {chunk : Chunk} {v : Option Float} (h : step chunk m = .ok v m') :
    m'.address = (decode chunk m.address).2 := by
  rw [step_eq_effect, onStack] at h
  split at h
  · injection h with _ h
    rw [← h]
  · cases h

/-- A step that does not fail does to the stack what the instruction does. -/
theorem effect_of_step {chunk : Chunk} {v : Option Float} (h : step chunk m = .ok v m') :
    (decode chunk m.address).1.effect m.stack = .ok v m'.stack := by
  rw [step_eq_effect, onStack] at h
  split at h
  · next h₁ =>
    injection h with h₂ h₃
    rw [← h₂, ← h₃, h₁]
  · cases h

/-- Only a return gives a value. -/
theorem decode_of_step_some {chunk : Chunk} {value : Float}
    (h : step chunk m = .ok (some value) m') : (decode chunk m.address).1 = .simple .ret := by
  by_cases hret : (decode chunk m.address).1 = .simple .ret
  · exact hret
  · have hv := Stack.GivesNothing.effect hret (effect_of_step h)
    cases hv

/-- A return never lets a run go on. -/
theorem decode_of_step_none {chunk : Chunk} (h : step chunk m = .ok none m') :
    (decode chunk m.address).1 ≠ .simple .ret := by
  intro hret
  have he := effect_of_step h
  rw [hret] at he
  obtain ⟨address, ⟨items, hle⟩⟩ := m
  cases items with
  | nil => cases he
  | cons v items => cases he

end Machine

end Abacus
