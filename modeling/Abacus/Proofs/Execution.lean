import Abacus.Proofs.Decoding
import Abacus.Proofs.Expr

namespace Abacus

/-!
# Execution of postfix code

* `Machine.Steps chunk m ms m'` — from `m` the machine goes through the states `ms` and comes to
  `m'`.
* `Steps.runFrom_eq`, `Steps.listingFrom_eq` — a run and a listing pass through these states.
* `Machine.exists_steps_runFrom` — every run is such a way and one step more, which ends it.
* `Expr.exists_computes` — the code of a tree leaves its value on the stack, if there is room.
-/

namespace Machine

variable {chunk : Chunk} {m m' m'' : Machine} {ms ms' : List Machine}

/-- The machine goes from one state to another, through some states on its way. -/
inductive Steps (chunk : Chunk) : Machine → List Machine → Machine → Prop where
  | refl (m : Machine) : Steps chunk m [] m
  | cons {m m₁ m' : Machine} {ms : List Machine} :
      step chunk m = .ok none m₁ → Steps chunk m₁ ms m' → Steps chunk m (m :: ms) m'

/-- Steps can be taken one after the other. -/
theorem Steps.trans (h : Steps chunk m ms m') (h' : Steps chunk m' ms' m'') :
    Steps chunk m (ms ++ ms') m'' := by
  induction h with
  | refl => exact h'
  | cons hstep _ ih => exact .cons hstep (ih h')

theorem Steps.single (h : step chunk m = .ok none m') : Steps chunk m [m] m' :=
  .cons h (.refl m')

/-! ### Runs -/

/-- A run takes a step, and goes on unless that returns or fails. -/
theorem runFrom_eq (chunk : Chunk) (m : Machine) :
    runFrom chunk m
      = match step chunk m with
        | .ok none m' => { runFrom chunk m' with visited := m :: (runFrom chunk m').visited }
        | .ok (some value) m' => ⟨[m], .ok value, m'⟩
        | .error cause m' => ⟨[m], .error ⟨cause, m.address⟩, m'⟩ := by
  rw [runFrom]
  split
  · next h => simp only [h]
  · next h => simp only [h]
  · next h => simp only [h]

/-- A step without a result is followed by the rest of the run. -/
theorem runFrom_of_none (h : step chunk m = .ok none m') :
    runFrom chunk m
      = { runFrom chunk m' with visited := m :: (runFrom chunk m').visited } := by
  rw [runFrom_eq, h]

/-- A step that returns ends the run with the value. -/
theorem runFrom_of_some {value : Float} (h : step chunk m = .ok (some value) m') :
    runFrom chunk m = ⟨[m], .ok value, m'⟩ := by
  rw [runFrom_eq, h]

/-- A step that fails ends the run with the cause and the address of the instruction. -/
theorem runFrom_of_error {cause : Fault.Cause} (h : step chunk m = .error cause m') :
    runFrom chunk m = ⟨[m], .error ⟨cause, m.address⟩, m'⟩ := by
  rw [runFrom_eq, h]

/-- A run passes through the states that the machine goes through. -/
theorem Steps.runFrom_eq (h : Steps chunk m ms m') :
    runFrom chunk m
      = { runFrom chunk m' with visited := ms ++ (runFrom chunk m').visited } := by
  induction h with
  | refl => rfl
  | cons hstep _ ih => rw [runFrom_of_none hstep, ih]; rfl

/-- The step with which a run ends, and what comes of it. -/
def Ends (chunk : Chunk) (m : Machine) : Except Fault Float → Prop
  | .ok value => ∃ m', step chunk m = .ok (some value) m'
  | .error fault => fault.offset = m.address ∧ ∃ m', step chunk m = .error fault.cause m'

/-- Every run is a row of steps that go on, and one that ends it. -/
theorem exists_steps_runFrom (chunk : Chunk) (m : Machine) :
    ∃ ms last, Steps chunk m ms last ∧ (runFrom chunk m).visited = ms ++ [last] ∧
      Ends chunk last (runFrom chunk m).result := by
  fun_induction runFrom chunk m with
  | case1 m m' hstep _ r ih =>
    obtain ⟨ms, last, hsteps, hvisited, hends⟩ := ih
    refine ⟨m :: ms, last, .cons hstep hsteps, ?_, hends⟩
    show m :: (runFrom chunk m').visited = _
    rw [hvisited]
    rfl
  | case2 m value m' hstep => exact ⟨[], m, .refl m, rfl, m', hstep⟩
  | case3 m cause m' hstep => exact ⟨[], m, .refl m, rfl, rfl, m', hstep⟩

/-- The instruction that a machine is about to carry out, with its address. -/
def upcoming (chunk : Chunk) (m : Machine) : Nat × Instruction :=
  (m.address, (Instruction.decode chunk m.address).1)

/-- The machine goes through a listing line by line. -/
theorem Steps.listingFrom_eq (h : Steps chunk m ms m') :
    chunk.listingFrom m.address = ms.map (upcoming chunk) ++ chunk.listingFrom m'.address := by
  induction h with
  | refl => rfl
  | cons hstep _ ih =>
    rw [Chunk.listingFrom_of_lt (address_lt_of_step hstep).1, ← address_of_step hstep, ih]
    rfl

/-- The addresses that are gone through are those of the listing. -/
theorem Steps.listing_eq (h : Steps chunk m ms m') :
    (chunk.listingFrom m.address).map (·.1)
      = ms.map (·.address) ++ (chunk.listingFrom m'.address).map (·.1) := by
  rw [h.listingFrom_eq, List.map_append, List.map_map]
  rfl

/-- The machine never goes further than to the end of the code. -/
theorem Steps.address_le (h : Steps chunk m ms m') (hm : m.address ≤ chunk.length) :
    m'.address ≤ chunk.length := by
  induction h with
  | refl => exact hm
  | cons hstep _ ih =>
    apply ih
    rw [address_of_step hstep]
    exact Instruction.decode_next_le (address_lt_of_step hstep).1

/-! ### Single instructions -/

/-- The machine comes to an address in one step and has some values on its stack there. -/
def Goes (chunk : Chunk) (m : Machine) (address : Nat) (items : List Float) : Prop :=
  ∃ m', step chunk m = .ok none m' ∧ m'.address = address ∧ m'.stack.items = items

/-- A step does to the stack what the instruction does, and goes to the next address. -/
theorem step_of_effect {i : Instruction} {next : Nat} {v : Option Float}
    {s : Stack stackMax Float} (hd : Instruction.decode chunk m.address = (i, next))
    (he : i.effect m.stack = .ok v s) : step chunk m = .ok v ⟨next, s⟩ := by
  rw [step_eq_effect, hd, onStack, he]

/-- A constant is pushed, if there is room. -/
theorem goes_constant {index : UInt8} {value : Float} {next : Nat}
    (hd : Instruction.decode chunk m.address = (.constant index (some value), next))
    (hroom : m.stack.length < stackMax) : Goes chunk m next (value :: m.stack.items) := by
  refine ⟨⟨next, ⟨value :: m.stack.items, hroom⟩⟩, step_of_effect hd ?_, rfl, rfl⟩
  simp only [Instruction.effect, bind, EStateM.bind, Stack.push_of_lt value m.stack hroom]
  rfl

/-- The value on top is negated. -/
theorem goes_negate {value : Float} {items : List Float} {next : Nat}
    (hd : Instruction.decode chunk m.address = (.simple .negate, next))
    (hs : m.stack.items = value :: items) : Goes chunk m next (-value :: items) := by
  obtain ⟨address, ⟨_, hle⟩⟩ := m
  subst hs
  have hroom : items.length < stackMax := Nat.lt_of_succ_le hle
  refine ⟨⟨next, ⟨-value :: items, hroom⟩⟩, step_of_effect hd ?_, rfl, rfl⟩
  simp only [Instruction.effect, bind, EStateM.bind, Stack.pop_cons]
  rw [Stack.push_of_lt (-value) ⟨items, Nat.le_of_lt hroom⟩ hroom]
  rfl

/-- An operator replaces the two values on top. -/
theorem effect_binary (op : BinaryOp) :
    (Instruction.simple op.opcode).effect = Stack.replaceTwo op.apply := by
  cases op <;> rfl

/-- An operator replaces its two operands by their join. -/
theorem goes_binary (op : BinaryOp) {left right : Float} {items : List Float} {next : Nat}
    (hd : Instruction.decode chunk m.address = (.simple op.opcode, next))
    (hs : m.stack.items = right :: left :: items) :
    Goes chunk m next (op.apply left right :: items) := by
  obtain ⟨address, ⟨_, hle⟩⟩ := m
  subst hs
  have hroom : items.length < stackMax := Nat.lt_of_succ_lt hle
  refine ⟨⟨next, ⟨op.apply left right :: items, hroom⟩⟩, step_of_effect hd ?_, rfl, rfl⟩
  rw [effect_binary]
  simp only [Stack.replaceTwo, Stack.popTwo, bind, EStateM.bind, Stack.pop_cons, pure,
    EStateM.pure]
  rw [Stack.push_of_lt (op.apply left right) ⟨items, Nat.le_of_lt hroom⟩ hroom]

/-- A return takes the value on top as the result. -/
theorem step_ret {value : Float} {items : List Float} {next : Nat}
    (hd : Instruction.decode chunk m.address = (.simple .ret, next))
    (hs : m.stack.items = value :: items) :
    ∃ m', step chunk m = .ok (some value) m' ∧ m'.stack.items = items := by
  obtain ⟨address, ⟨_, hle⟩⟩ := m
  subst hs
  exact ⟨_, step_of_effect hd rfl, rfl⟩

/-! ### Trees -/

/-- A run over the code of a tree: it ends behind the code with one value more on the stack, and
    on its way never holds more than `most` values. -/
structure Computes (chunk : Chunk) (m : Machine) (length : Nat) (value : Float) (most : Nat)
    (ms : List Machine) (m' : Machine) : Prop where
  steps : Steps chunk m ms m'
  address : m'.address = m.address + length
  items : m'.stack.items = value :: m.stack.items
  bound : ∀ q ∈ ms, q.stack.length ≤ most

namespace Computes

variable {length most : Nat} {value : Float}

theorem length_eq (h : Computes chunk m length value most ms m') :
    m'.stack.length = m.stack.length + 1 :=
  congrArg List.length h.items

/-- One step that adds a value to the stack. -/
theorem constant {index : UInt8} (hcode : chunk.Holds m.address [Opcode.constant.byte, index])
    (hv : chunk.constant? index.toNat = some value) (hroom : m.stack.length < stackMax)
    (hmost : m.stack.length ≤ most) : ∃ m', Computes chunk m 2 value most [m] m' := by
  have hd := Instruction.decode_constant hcode
  rw [hv] at hd
  obtain ⟨m', hstep, ha, hs⟩ := goes_constant hd hroom
  exact ⟨m', .single hstep, ha, hs, List.forall_mem_singleton.2 hmost⟩

/-- A sign after the code of its operand. -/
theorem negate (h : Computes chunk m length value most ms m')
    (hcode : chunk.byte? (m.address + length) = some Opcode.negate.byte)
    (hmost : m.stack.length + 1 ≤ most) :
    ∃ m'', Computes chunk m (length + 1) (-value) most (ms ++ [m']) m'' := by
  rw [← h.address] at hcode
  obtain ⟨m'', hstep, ha, hs⟩ := goes_negate (Instruction.decode_simple hcode (by decide)) h.items
  refine ⟨m'', h.steps.trans (.single hstep), ?_, hs, ?_⟩
  · rw [ha, h.address, Nat.add_assoc]
  · rw [List.forall_mem_append, List.forall_mem_singleton, h.length_eq]
    exact ⟨h.bound, hmost⟩

/-- An operator after the code of its operands: the right one is worked out above the value of the
    left one, and then the operator takes both values. -/
theorem binary (op : BinaryOp) {length₁ length₂ : Nat} {left right : Float}
    (h₁ : Computes chunk m length₁ left most ms m')
    (h₂ : Computes chunk m' length₂ right most ms' m'')
    (hcode : chunk.byte? (m.address + length₁ + length₂) = some op.opcode.byte)
    (hmost : m.stack.length + 2 ≤ most) :
    ∃ q, Computes chunk m (length₁ + length₂ + 1) (op.apply left right) most
      (ms ++ (ms' ++ [m''])) q := by
  rw [← h₁.address, ← h₂.address] at hcode
  have hd := Instruction.decode_simple hcode op.opcode_ne_constant
  have hitems : m''.stack.items = right :: left :: m.stack.items := by rw [h₂.items, h₁.items]
  obtain ⟨q, hstep, ha, hs⟩ := goes_binary op hd hitems
  refine ⟨q, h₁.steps.trans (h₂.steps.trans (.single hstep)), ?_, hs, ?_⟩
  · rw [ha, h₂.address, h₁.address]
    omega
  · rw [List.forall_mem_append, List.forall_mem_append, List.forall_mem_singleton, h₂.length_eq,
      h₁.length_eq]
    exact ⟨h₁.bound, h₂.bound, hmost⟩

theorem mono {most' : Nat} (h : Computes chunk m length value most ms m') (hle : most ≤ most') :
    Computes chunk m length value most' ms m' :=
  ⟨h.steps, h.address, h.items, fun q hq => Nat.le_trans (h.bound q hq) hle⟩

end Computes

end Machine

open Machine in
/-- The code of a tree leaves the value of the tree on the stack, if there is room for it. -/
theorem Expr.exists_computes {chunk : Chunk} (e : Expr UInt8) (x : Expr Float)
    (hx : e.map (fun i => chunk.constant? i.toNat) = x.map some) (m : Machine)
    (hcode : chunk.Holds m.address e.code) (hroom : m.stack.length + e.need ≤ stackMax) :
    ∃ ms m', Computes chunk m e.code.length x.value (m.stack.length + e.need) ms m' := by
  induction e generalizing x m with
  | number i =>
    cases x with
    | number value =>
      have hv : chunk.constant? i.toNat = some value := by injection hx
      exact ⟨[m], Computes.constant hcode hv hroom (Nat.le_add_right _ _)⟩
    | negate _ => cases hx
    | binary _ _ _ => cases hx
  | negate e ih =>
    cases x with
    | number _ => cases hx
    | negate x =>
      injection hx with hx
      rw [code, Chunk.holds_append] at hcode
      obtain ⟨ms, m₁, h⟩ := ih x hx m hcode.1 hroom
      rw [code, List.length_append]
      have hpos := e.need_pos
      exact ⟨ms ++ [m₁], h.negate hcode.2.1 (by omega)⟩
    | binary _ _ _ => cases hx
  | binary op l r ihl ihr =>
    cases x with
    | number _ => cases hx
    | negate _ => cases hx
    | binary op' y z =>
      injection hx with hop hy hz
      subst hop
      rw [code, Chunk.holds_append, Chunk.holds_append, List.length_append, ← Nat.add_assoc]
        at hcode
      obtain ⟨⟨hcl, hcr⟩, hco⟩ := hcode
      rw [need] at hroom ⊢
      have hpos := r.need_pos
      obtain ⟨ms, m₁, h₁⟩ := ihl y hy m hcl (by omega)
      -- The right operand has one value below it, which counts.
      have hlen := h₁.length_eq
      obtain ⟨ms', m₂, h₂⟩ := ihr z hz m₁ (h₁.address ▸ hcr) (by omega)
      have h₁' := h₁.mono (show _ ≤ m.stack.length + max l.need (1 + r.need) by omega)
      have h₂' := h₂.mono (show _ ≤ m.stack.length + max l.need (1 + r.need) by omega)
      rw [code, List.length_append, List.length_append]
      exact ⟨ms ++ (ms' ++ [m₂]), h₁'.binary op h₂' hco.1 (by omega)⟩

/-- In a chunk made of the code of a tree and a return, the code stands at the beginning and the
    return behind it. -/
theorem Expr.holds_of_code_eq {chunk : Chunk} {e : Expr UInt8}
    (h : chunk.code.toList = e.code ++ [Opcode.ret.byte]) :
    chunk.Holds 0 e.code ∧ chunk.byte? e.code.length = some Opcode.ret.byte := by
  have hcode : chunk.code.toList = [] ++ (e.code ++ [Opcode.ret.byte] ++ []) := by
    rw [h, List.append_nil, List.nil_append]
  have hholds := Chunk.holds_of_code_eq hcode
  rw [List.length_nil, Chunk.holds_append, Nat.zero_add] at hholds
  exact ⟨hholds.1, hholds.2.1⟩

end Abacus
