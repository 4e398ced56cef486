import Abacus.Proofs.Execution

namespace Abacus

/-!
# How much room postfix code takes

The code of a tree runs to its end exactly if the stack has room for as many values as the tree
needs. Otherwise it fails at the first constant that finds the stack full.

* `Instruction.live`, `liveAfter` — how many values are on the stack behind some instructions.
* `Machine.Steps.length_eq` — the machine has as many as are counted.
* `Expr.exists_overflows` — the code of a tree that needs too much comes to a constant with a full
  stack.
* `Chunk.OverflowsFirstAt` — the first constant of a chunk for which there is no room.
* `Expr.run_code` — both for chunks that hold the code of a tree and a return.
-/

/-! ### Counting values -/

/-- How many values are on the stack behind an instruction, from how many there are before it. -/
def Instruction.live (before : Nat) : Instruction → Nat
  | .constant _ _ => before + 1
  | .simple .add | .simple .sub | .simple .mul | .simple .div | .simple .ret => before - 1
  | .simple .negate | .simple .constant | .truncated _ | .unknown _ | .pastEnd => before

/-- How many values are on the stack behind some instructions, from none before the first. -/
def liveAfter (is : List Instruction) : Nat := is.foldl Instruction.live 0

/-- Where two values are replaced by one, one is gone. -/
theorem Stack.length_of_replaceTwo {f : Float → Float → Float} {s s' : Stack stackMax Float}
    {v : Option Float} (h : Stack.replaceTwo f s = .ok v s') : s'.length = s.length - 1 := by
  obtain ⟨items, hle⟩ := s
  match items with
  | [] => cases h
  | [_] => cases h
  | right :: left :: items =>
    have hroom : items.length < stackMax := Nat.lt_of_succ_lt hle
    simp only [replaceTwo, popTwo, bind, EStateM.bind, pop_cons, pure, EStateM.pure] at h
    rw [push_of_lt (f left right) ⟨items, Nat.le_of_lt hroom⟩ hroom] at h
    cases h
    rfl

/-- An instruction that is carried out leaves as many values as are counted. -/
theorem Instruction.length_of_effect {i : Instruction} {s s' : Stack stackMax Float}
    {v : Option Float} (h : i.effect s = .ok v s') : s'.length = i.live s.length := by
  obtain ⟨items, hle⟩ := s
  cases i with
  | constant index value =>
    cases value with
    | none => cases h
    | some x =>
      by_cases hroom : items.length < stackMax
      · simp only [effect, bind, EStateM.bind, Stack.push_of_lt x ⟨items, hle⟩ hroom] at h
        cases h
        rfl
      · have hfull := Nat.not_lt.1 hroom
        simp only [effect, bind, EStateM.bind, Stack.push_of_le x ⟨items, hle⟩ hfull] at h
        cases h
  | simple opcode =>
    cases opcode with
    | constant => cases h
    | negate =>
      cases items with
      | nil => cases h
      | cons value items =>
        have hroom : items.length < stackMax := Nat.lt_of_succ_le hle
        simp only [effect, bind, EStateM.bind, Stack.pop_cons] at h
        rw [Stack.push_of_lt (-value) ⟨items, Nat.le_of_lt hroom⟩ hroom] at h
        cases h
        rfl
    | ret =>
      cases items with
      | nil => cases h
      | cons value items =>
        cases h
        rfl
    | _ => exact Stack.length_of_replaceTwo h
  | truncated _ => cases h
  | unknown _ => cases h
  | pastEnd => cases h

namespace Machine

variable {chunk : Chunk} {m m' q : Machine} {ms ms' : List Machine}

/-- A step leaves as many values as its instruction. -/
theorem length_of_step {v : Option Float} (h : step chunk m = .ok v m') :
    m'.stack.length = (upcoming chunk m).2.live m.stack.length :=
  Instruction.length_of_effect (effect_of_step h)

/-- On its way, the machine has as many values on its stack as are counted. -/
theorem Steps.length_eq (h : Steps chunk m ms m') :
    m'.stack.length
      = ((ms.map (upcoming chunk)).map (·.2)).foldl Instruction.live m.stack.length := by
  induction h with
  | refl => rfl
  | cons hstep _ ih => rw [ih, length_of_step hstep]; rfl

/-- A way through a state leads to it, and on from it by a step. -/
theorem Steps.of_append (h : Steps chunk m (ms ++ q :: ms') m') :
    Steps chunk m ms q ∧ ∃ q', step chunk q = .ok none q' := by
  induction ms generalizing m with
  | nil =>
    cases h with
    | cons hstep _ => exact ⟨.refl _, _, hstep⟩
  | cons r ms ih =>
    cases h with
    | cons hstep h =>
      obtain ⟨hms, hq⟩ := ih h
      exact ⟨.cons hstep hms, hq⟩

/-! ### Running out of room -/

/-- Before it pushes a constant, the machine has no room for it. -/
structure Stuck (chunk : Chunk) (m : Machine) : Prop where
  constant : ∃ index value, (upcoming chunk m).2 = .constant index (some value)
  full : m.stack.length = stackMax

/-- Where a machine is stuck, the next step fails for lack of room. -/
theorem Stuck.step_eq (h : Stuck chunk m) : ∃ m', step chunk m = .error .stackOverflow m' := by
  obtain ⟨index, value, hd⟩ := h.constant
  have hdecode : (Instruction.decode chunk m.address).1 = .constant index (some value) := hd
  refine ⟨⟨(Instruction.decode chunk m.address).2, m.stack⟩, ?_⟩
  rw [step_eq_effect, hdecode, onStack]
  simp only [Instruction.effect, bind, EStateM.bind,
    Stack.push_of_le value m.stack (Nat.le_of_eq h.full.symm)]

/-- A machine is never stuck behind the code. -/
theorem Stuck.address_lt (h : Stuck chunk m) : m.address < chunk.length := by
  obtain ⟨index, value, hd⟩ := h.constant
  refine Nat.lt_of_not_le ?_
  intro hle
  have hnone := Chunk.byte?_eq_none_iff.2 hle
  simp only [upcoming, Instruction.decode, hnone] at hd
  cases hd

end Machine

/-- An instruction at an address is the first of a chunk that pushes a constant on a full stack. -/
def Chunk.OverflowsFirstAt (c : Chunk) (address : Nat) : Prop :=
  ∃ before index value after,
    c.listing = before ++ (address, Instruction.constant index value) :: after ∧
      liveAfter (before.map (·.2)) = stackMax ∧
      ∀ early address' index' value' late,
        before = early ++ (address', Instruction.constant index' value') :: late →
          liveAfter (early.map (·.2)) < stackMax

open Machine in
/-- Where the machine is stuck, it is so for the first time. -/
theorem Chunk.overflowsFirstAt_of_stuck {c : Chunk} {ms : List Machine} {q : Machine}
    (h : Steps c .initial ms q) (hq : Stuck c q) : c.OverflowsFirstAt q.address := by
  obtain ⟨index, value, hd⟩ := hq.constant
  have hlisting : c.listing = ms.map (upcoming c) ++ c.listingFrom q.address := h.listingFrom_eq
  have hdecode : (Instruction.decode c q.address).1 = .constant index (some value) := hd
  rw [listingFrom_of_lt hq.address_lt, hdecode] at hlisting
  refine ⟨ms.map (upcoming c), index, some value, _, hlisting, ?_, ?_⟩
  · rw [← hq.full, h.length_eq]
    rfl
  · intro early address' index' value' late hsplit
    obtain ⟨ms₁, ms₂, rfl, hearly, hrest⟩ := List.map_eq_append_iff.1 hsplit
    obtain ⟨r, ms₃, rfl, hr, -⟩ := List.map_eq_cons_iff.1 hrest
    -- The machine went on behind this constant, so there was room for it.
    obtain ⟨hms, r', hstep⟩ := h.of_append
    have hlength : liveAfter (early.map (·.2)) = r.stack.length := by
      rw [hms.length_eq, ← hearly]
      rfl
    have hnext : r'.stack.length = (upcoming c r).2.live r.stack.length := length_of_step hstep
    rw [hr, Instruction.live] at hnext
    have hle : r'.stack.length ≤ stackMax := r'.stack.length_le
    omega

namespace Expr

/-- If every literal stands for a value, the tree stands for a tree of values. -/
theorem exists_map_some {α β : Type} {f : α → Option β} {e : Expr α}
    (h : ∀ a ∈ e.literals, ∃ b, f a = some b) : ∃ x : Expr β, e.map f = x.map some := by
  induction e with
  | number a =>
    obtain ⟨b, hb⟩ := h a (List.mem_singleton_self a)
    exact ⟨.number b, congrArg Expr.number hb⟩
  | negate e ih =>
    obtain ⟨x, hx⟩ := ih h
    exact ⟨.negate x, congrArg Expr.negate hx⟩
  | binary op l r ihl ihr =>
    rw [literals, List.forall_mem_append] at h
    obtain ⟨x, hx⟩ := ihl h.1
    obtain ⟨y, hy⟩ := ihr h.2
    exact ⟨.binary op x y, by rw [map, map, hx, hy]⟩

open Machine in
/-- The code of a tree that needs more room than there is comes to a constant with a full stack. -/
theorem exists_overflows {c : Chunk} (e : Expr UInt8)
    (hvalid : ∀ i ∈ e.literals, ∃ value, c.constant? i.toNat = some value) (m : Machine)
    (hcode : c.Holds m.address e.code) (hover : stackMax < m.stack.length + e.need) :
    ∃ ms q, Steps c m ms q ∧ Stuck c q := by
  induction e generalizing m with
  | number i =>
    obtain ⟨value, hv⟩ := hvalid i (List.mem_singleton_self i)
    have hle : m.stack.length ≤ stackMax := m.stack.length_le
    have hfull : m.stack.length = stackMax := Nat.le_antisymm hle (Nat.le_of_lt_succ hover)
    have hdecode := Instruction.decode_constant hcode
    rw [hv] at hdecode
    exact ⟨[], m, .refl m, ⟨i, value, congrArg Prod.fst hdecode⟩, hfull⟩
  | negate e ih =>
    rw [code, Chunk.holds_append] at hcode
    exact ih hvalid m hcode.1 hover
  | binary op l r ihl ihr =>
    rw [literals, List.forall_mem_append] at hvalid
    rw [code, Chunk.holds_append, Chunk.holds_append] at hcode
    obtain ⟨⟨hcl, hcr⟩, -⟩ := hcode
    rw [need] at hover
    by_cases hl : stackMax < m.stack.length + l.need
    · exact ihl hvalid.1 m hcl hl
    · -- The left operand finds room, and its value waits below the right one.
      obtain ⟨x, hx⟩ := exists_map_some hvalid.1
      obtain ⟨ms, m₁, h₁⟩ := exists_computes l x hx m hcl (by omega)
      have hlen := h₁.length_eq
      obtain ⟨ms', q, hsteps, hstuck⟩ := ihr hvalid.2 m₁ (h₁.address ▸ hcr) (by omega)
      exact ⟨ms ++ ms', q, h₁.steps.trans hsteps, hstuck⟩

/-! ### Whole chunks -/

variable {c : Chunk} {e : Expr UInt8}

/-- A tree that finds room on the stack is computed. -/
theorem run_eq_ok (h : c.code.toList = e.code ++ [Opcode.ret.byte]) {x : Expr Float}
    (hx : e.map (fun i => c.constant? i.toNat) = x.map some) (hneed : e.need ≤ stackMax) :
    run c = .ok x.value := by
  obtain ⟨hholds, hret⟩ := holds_of_code_eq h
  have hroom : 0 + e.need ≤ stackMax := by omega
  obtain ⟨ms, m, hm⟩ := exists_computes e x hx .initial hholds hroom
  -- Behind the code of the tree stands the return, with the value on top of the stack.
  have haddress : m.address = e.code.length := hm.address.trans (Nat.zero_add _)
  rw [← haddress] at hret
  obtain ⟨m', hstep, -⟩ := Machine.step_ret (Instruction.decode_simple hret (by decide)) hm.items
  show (Machine.runFrom c .initial).result = _
  rw [hm.steps.runFrom_eq, Machine.runFrom_of_some hstep]

/-- A tree that does not find room overflows the stack where it first runs out. -/
theorem run_eq_stackOverflow (h : c.code.toList = e.code ++ [Opcode.ret.byte])
    (hvalid : ∀ i ∈ e.literals, ∃ value, c.constant? i.toNat = some value)
    (hneed : stackMax < e.need) :
    ∃ address, run c = .error ⟨.stackOverflow, address⟩ ∧ c.OverflowsFirstAt address := by
  have hover : stackMax < 0 + e.need := by omega
  obtain ⟨ms, q, hsteps, hq⟩ := exists_overflows e hvalid .initial (holds_of_code_eq h).1 hover
  obtain ⟨q', hstep⟩ := hq.step_eq
  refine ⟨q.address, ?_, Chunk.overflowsFirstAt_of_stuck hsteps hq⟩
  show (Machine.runFrom c .initial).result = _
  rw [hsteps.runFrom_eq, Machine.runFrom_of_error hstep]

/-- **The room that postfix code takes.** Let every literal of a tree be the index of a constant. A
    chunk made of the tree's code and a return has the tree's value if the tree needs no more room
    than the stack has; otherwise its run fails at the first constant for which there is none. And
    wherever the code stands, with room enough above what is on the stack already, it adds the
    tree's value to that. -/
theorem run_code (e : Expr UInt8) (c : Chunk)
    (hvalid : ∀ i ∈ e.literals, i.toNat < c.constants.size) :
    ∃ x : Expr Float, e.map (fun i => c.constant? i.toNat) = x.map some ∧
      (c.code.toList = e.code ++ [Opcode.ret.byte] →
        (e.need ≤ stackMax → run c = .ok x.value) ∧
        (stackMax < e.need →
          ∃ address, run c = .error ⟨.stackOverflow, address⟩ ∧ c.OverflowsFirstAt address)) ∧
      ∀ m : Machine, c.Holds m.address e.code → m.stack.length + e.need ≤ stackMax →
        ∃ ms m', Machine.Steps c m ms m' ∧ m'.address = m.address + e.code.length ∧
          m'.stack.items = x.value :: m.stack.items := by
  have hconstants : ∀ i ∈ e.literals, ∃ value, c.constant? i.toNat = some value :=
    fun i hi => ⟨_, Array.getElem?_eq_getElem (hvalid i hi)⟩
  obtain ⟨x, hx⟩ := exists_map_some hconstants
  refine ⟨x, hx, fun hcode => ⟨run_eq_ok hcode hx, run_eq_stackOverflow hcode hconstants⟩, ?_⟩
  intro m hholds hroom
  obtain ⟨ms, m', hm⟩ := exists_computes e x hx m hholds hroom
  exact ⟨ms, m', hm.steps, hm.address, hm.items⟩

/-- A sum that leans to the right, all of whose literals are the first constant. -/
def rightSum : (operators : Nat) → Expr UInt8
  | 0 => .number 0
  | n + 1 => .binary .add (.number 0) (rightSum n)

/-- A chunk whose only constant is one, with the code of such a sum. -/
def rightSumChunk (operators : Nat) : Chunk where
  code := ((rightSum operators).code ++ [Opcode.ret.byte]).toArray
  constants := #[1]

/-- With 255 operators a sum that leans to the right fills the stack, and with 256 there is one
    literal too many. -/
theorem run_code_rightSum :
    (∃ x : Expr Float, (rightSum 255).map (fun i => (rightSumChunk 255).constant? i.toNat)
        = x.map some ∧ run (rightSumChunk 255) = .ok x.value) ∧
      ∃ address, run (rightSumChunk 256) = .error ⟨.stackOverflow, address⟩ ∧
        (rightSumChunk 256).OverflowsFirstAt address := by
  constructor
  · obtain ⟨x, hx, hrun, -⟩ := run_code (rightSum 255) (rightSumChunk 255) (by decide +kernel)
    exact ⟨x, hx, (hrun rfl).1 (by decide +kernel)⟩
  · obtain ⟨x, -, hrun, -⟩ := run_code (rightSum 256) (rightSumChunk 256) (by decide +kernel)
    exact (hrun rfl).2 (by decide +kernel)

end Expr

end Abacus
