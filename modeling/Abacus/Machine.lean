import Abacus.Chunk
import Abacus.Limits
import Abacus.Stack

namespace Abacus

/-!
# The machine

* `Machine` — the address of the next byte, and the stack.
* `Machine.step` — carries one instruction out.
* `Machine.run` — carries instructions out from the beginning of a chunk until one returns or
  fails.
-/

/-- The state of the machine between two instructions. -/
structure Machine where
  /-- The address of the next byte to read. -/
  address : Nat
  stack : Stack stackMax Float

namespace Machine

/-- A machine that has not run yet. -/
def initial : Machine := ⟨0, .empty⟩

/-- An operation of the machine, which may fail. -/
abbrev Op (β : Type) := EStateM Fault.Cause Machine β

/-- An operation on the machine's stack. -/
def onStack {β : Type} (op : Stack.Op stackMax Float β) : Op β := fun m =>
  match op m.stack with
  | .ok b s => .ok b { m with stack := s }
  | .error e s => .error e { m with stack := s }

/-- Reads the next byte. -/
def fetch (chunk : Chunk) : Op UInt8 := fun m =>
  match chunk.byte? m.address with
  | some b => .ok b { m with address := m.address + 1 }
  | none => .error .endOfChunk m

/-- Replaces the two values on top by one. -/
def binary (f : Float → Float → Float) : Op Unit := do
  let (left, right) ← onStack Stack.popTwo
  onStack (Stack.push (f left right))

/-- Carries out an instruction whose opcode was read. Only a return gives a value. -/
def execute (chunk : Chunk) : Opcode → Op (Option Float)
  | .constant => do
    let index ← fetch chunk
    match chunk.constant? index.toNat with
    | some value =>
      onStack (Stack.push value)
      return none
    | none => throw (.invalidConstant index)
  | .negate => do
    let value ← onStack Stack.pop
    onStack (Stack.push (-value))
    return none
  | .add => do binary (· + ·); return none
  | .sub => do binary (· - ·); return none
  | .mul => do binary (· * ·); return none
  | .div => do binary (· / ·); return none
  | .ret => do
    let value ← onStack Stack.pop
    return some value

/-- Carries one instruction out. -/
def step (chunk : Chunk) : Op (Option Float) := do
  let b ← fetch chunk
  match Opcode.ofByte? b with
  | some opcode => execute chunk opcode
  | none => throw (.unknownOpcode b)

/-! ### How far a step goes -/

/-- An operation that never goes back in the code. -/
def Forward {β : Type} (op : Op β) : Prop :=
  ∀ ⦃m m' : Machine⦄ ⦃b : β⦄, op m = .ok b m' → m.address ≤ m'.address

theorem Forward.pure {β : Type} (b : β) : Forward (pure b) := by
  intro m m' b' h
  injection h with _ h
  exact Nat.le_of_eq (congrArg address h)

theorem Forward.throw {β : Type} (e : Fault.Cause) : Forward (throw e : Op β) := by
  intro m m' b' h
  nomatch h

/-- Two operations in a row succeed if each does. -/
theorem exists_of_bind_eq_ok {β γ : Type} {op : Op β} {f : β → Op γ} {m m' : Machine} {c : γ}
    (h : (op >>= f) m = .ok c m') : ∃ b m₁, op m = .ok b m₁ ∧ f b m₁ = .ok c m' := by
  simp only [bind, EStateM.bind] at h
  split at h
  · next b m₁ h₁ => exact ⟨b, m₁, h₁, h⟩
  · nomatch h

theorem Forward.bind {β γ : Type} {op : Op β} {f : β → Op γ} (hop : Forward op)
    (hf : ∀ b, Forward (f b)) : Forward (op >>= f) := by
  intro m m' c h
  obtain ⟨b, m₁, h₁, h₂⟩ := exists_of_bind_eq_ok h
  exact Nat.le_trans (hop h₁) (hf b h₂)

theorem Forward.onStack {β : Type} (op : Stack.Op stackMax Float β) : Forward (onStack op) := by
  intro m m' b h
  unfold Machine.onStack at h
  split at h
  · injection h with _ h
    subst h
    exact Nat.le_refl _
  · nomatch h

theorem fetch_eq_ok {chunk : Chunk} {m m' : Machine} {b : UInt8} (h : fetch chunk m = .ok b m') :
    chunk.byte? m.address = some b ∧ m' = { m with address := m.address + 1 } := by
  unfold fetch at h
  split at h
  · next hb =>
    injection h with h₁ h₂
    exact ⟨by rw [hb, h₁], h₂.symm⟩
  · nomatch h

theorem Forward.fetch (chunk : Chunk) : Forward (fetch chunk) := by
  intro m m' b h
  rw [(fetch_eq_ok h).2]
  exact Nat.le_succ _

theorem Forward.binary (f : Float → Float → Float) : Forward (binary f) :=
  .bind (.onStack _) fun _ => .onStack _

theorem Forward.execute (chunk : Chunk) (opcode : Opcode) : Forward (execute chunk opcode) := by
  cases opcode with
  | constant =>
    refine .bind (.fetch chunk) fun index => ?_
    split
    · exact .bind (.onStack _) fun _ => .pure _
    · exact .throw _
  | negate => exact .bind (.onStack _) fun _ => .bind (.onStack _) fun _ => .pure _
  | ret => exact .bind (.onStack _) fun _ => .pure _
  | _ => exact .bind (.binary _) fun _ => .pure _

/-- A step that does not fail begins within the code and goes on in it. -/
theorem address_lt_of_step {chunk : Chunk} {m m' : Machine} {v : Option Float}
    (h : step chunk m = .ok v m') : m.address < chunk.length ∧ m.address < m'.address := by
  obtain ⟨b, m₁, h₁, h₂⟩ := exists_of_bind_eq_ok h
  -- Reading the opcode already goes one byte further.
  obtain ⟨hb, rfl⟩ := fetch_eq_ok h₁
  refine ⟨Chunk.lt_length_of_byte? hb, ?_⟩
  cases ho : Opcode.ofByte? b with
  | none => rw [ho] at h₂; nomatch h₂
  | some opcode => rw [ho] at h₂; exact Forward.execute chunk opcode h₂

/-! ### Runs -/

/-- A run of a chunk. -/
structure Run where
  /-- The state of the machine before each instruction. -/
  visited : List Machine
  result : Except Fault Float
  /-- The state of the machine at the end. -/
  final : Machine

/-- Carries instructions out until one returns or fails. -/
def runFrom (chunk : Chunk) (m : Machine) : Run :=
  match h : step chunk m with
  | .ok none m' =>
    have := address_lt_of_step h
    let r := runFrom chunk m'
    { r with visited := m :: r.visited }
  | .ok (some value) m' => ⟨[m], .ok value, m'⟩
  | .error cause m' => ⟨[m], .error ⟨cause, m.address⟩, m'⟩
termination_by chunk.length - m.address

/-- The machine ready for another run. -/
def reset (m : Machine) : Machine := { m with address := 0, stack := .empty }

/-- Runs a chunk from its beginning, whatever was run before. -/
def run (m : Machine) (chunk : Chunk) : Run := runFrom chunk m.reset

end Machine

/-- The value of a chunk, run on a new machine. -/
def run (chunk : Chunk) : Except Fault Float := (Machine.initial.run chunk).result

end Abacus
