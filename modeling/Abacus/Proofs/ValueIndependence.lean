import Abacus.Proofs.StackNeed
import Abacus.Proofs.StepFaults

namespace Abacus

/-!
# Faults do not depend on values

Two chunks with the same code and equally many constants run side by side, whatever the constants
are: before every step the machines are at the same address and have equally many values on their
stacks.

* `Instruction.form` — an instruction without the value that it pushes.
* `Chunk.SameForm c c'` — the chunks differ in the values of their constants only;
  `decode_of_sameForm` — so do the instructions that are decoded.
* `Machine.sight` — what can be seen of a machine without its values.
* `Machine.step_of_sight_eq` — a step ends in the same way for machines that look the same;
  `Machine.runFrom_of_sight_eq` — so does a run.
* `run_valueIndependent` — what this means for runs from the beginning.
-/

/-! ### Instructions without values -/

namespace Instruction

variable {i j : Instruction}

/-- An instruction without the value that it pushes: all that is kept is whether there is one. -/
def form : Instruction → Instruction
  | constant index value => constant index (value.map fun _ => 0)
  | simple opcode => simple opcode
  | truncated opcode => truncated opcode
  | unknown byte => unknown byte
  | pastEnd => pastEnd

/-- Why an instruction fails does not depend on values. -/
@[simp] theorem failure?_form (i : Instruction) (count : Nat) :
    i.form.failure? count = i.failure? count := by
  cases i with
  | constant index value => cases value <;> rfl
  | _ => rfl

/-- Nor does the number of values that it leaves. -/
@[simp] theorem live_form (i : Instruction) (before : Nat) :
    i.form.live before = i.live before := by
  cases i <;> rfl

/-- Nor does whether it is a return. -/
@[simp] theorem form_eq_ret_iff : i.form = .simple .ret ↔ i = .simple .ret := by
  cases i <;> simp [form]

/-- Why an instruction fails is told by its form. -/
theorem failure?_of_form_eq (h : i.form = j.form) (count : Nat) :
    i.failure? count = j.failure? count := by
  rw [← failure?_form, h, failure?_form]

/-- So is how many values it leaves. -/
theorem live_of_form_eq (h : i.form = j.form) (before : Nat) : i.live before = j.live before := by
  rw [← live_form, h, live_form]

/-- And so is whether it returns. -/
theorem ret_iff_of_form_eq (h : i.form = j.form) : i = .simple .ret ↔ j = .simple .ret := by
  rw [← form_eq_ret_iff, h, form_eq_ret_iff]

end Instruction

/-- Two chunks differ in the values of their constants only. -/
structure Chunk.SameForm (c c' : Chunk) : Prop where
  code : c.code = c'.code
  size : c.constants.size = c'.constants.size

namespace Chunk.SameForm

variable {c c' : Chunk}

/-- A constant is there in both chunks, or missing in both. -/
theorem map_constant?_eq (h : c.SameForm c') (index : Nat) :
    (c.constant? index).map (fun _ => (0 : Float))
      = (c'.constant? index).map fun _ => (0 : Float) := by
  have hsize := h.size
  by_cases hi : index < c.constants.size
  · have hi' : index < c'.constants.size := by omega
    simp [constant?, hi, hi']
  · have hi' : ¬ index < c'.constants.size := by omega
    simp [constant?, hi, hi']

end Chunk.SameForm

/-- In chunks that differ in the values of their constants only, so do the instructions. -/
theorem Instruction.decode_of_sameForm {c c' : Chunk} (h : c.SameForm c') (address : Nat) :
    (decode c address).1.form = (decode c' address).1.form ∧
      (decode c address).2 = (decode c' address).2 := by
  obtain ⟨i, next, hi⟩ := exists_stands c address
  rw [hi.decode_eq, (hi.withConstantsOf h.code.symm).decode_eq]
  refine ⟨?_, rfl⟩
  cases hi with
  | @constant index _ => exact congrArg (constant index) (h.map_constant?_eq index.toNat)
  | _ => rfl

/-! ### Two machines side by side -/

namespace Machine

open Instruction

variable {c c' : Chunk} {m m' : Machine}

/-- What can be seen of a machine without its values: where it is, and how many values it has. -/
def sight (m : Machine) : Nat × Nat := (m.address, m.stack.length)

/-- A step that does not fail gives a value exactly at a return. -/
theorem exists_step_eq_some_iff {v : Option Float} (h : step c m = .ok v m') :
    (∃ value, v = some value) ↔ (decode c m.address).1 = .simple .ret := by
  cases v with
  | none => simpa using decode_of_step_none h
  | some value => simpa using decode_of_step_some h

/-- The ways in which a step ends, the same for two machines. -/
inductive StepsAlike (c c' : Chunk) (m m' : Machine) : Prop where
  | goesOn (q q' : Machine) : step c m = .ok none q → step c' m' = .ok none q' →
      q.sight = q'.sight → StepsAlike c c' m m'
  | returns (value value' : Float) (q q' : Machine) : step c m = .ok (some value) q →
      step c' m' = .ok (some value') q' → StepsAlike c c' m m'
  | fails (cause : Fault.Cause) (q q' : Machine) : step c m = .error cause q →
      step c' m' = .error cause q' → StepsAlike c c' m m'

/-- A step ends in the same way for machines that look the same, and if they go on, they still look
    the same. -/
theorem step_of_sight_eq (h : c.SameForm c') (hm : m.sight = m'.sight) : StepsAlike c c' m m' := by
  obtain ⟨haddress, hlength⟩ := Prod.mk.inj hm
  obtain ⟨hform, hnext⟩ := decode_of_sameForm h m.address
  have hform' : (decode c m.address).1.form = (decode c' m'.address).1.form := by
    rw [hform, haddress]
  have hfailure : (decode c m.address).1.failure? m.stack.length
      = (decode c' m'.address).1.failure? m'.stack.length := by
    rw [failure?_of_form_eq hform', hlength]
  cases hcause : (decode c m.address).1.failure? m.stack.length with
  | some cause =>
    obtain ⟨q, hq⟩ := fails_iff.2 hcause
    obtain ⟨q', hq'⟩ := fails_iff.2 (hfailure ▸ hcause)
    exact .fails cause q q' hq hq'
  | none =>
    obtain ⟨v, q, hq⟩ := exists_step_eq_ok hcause
    obtain ⟨v', q', hq'⟩ := exists_step_eq_ok (hfailure ▸ hcause)
    -- Both give a value, or neither does.
    have hsome : (∃ value, v = some value) ↔ ∃ value, v' = some value := by
      rw [exists_step_eq_some_iff hq, exists_step_eq_some_iff hq', ret_iff_of_form_eq hform']
    cases v with
    | some value =>
      obtain ⟨value', rfl⟩ := hsome.1 ⟨value, rfl⟩
      exact .returns value value' q q' hq hq'
    | none =>
      cases v' with
      | some value' =>
        obtain ⟨value, hvalue⟩ := hsome.2 ⟨value', rfl⟩
        cases hvalue
      | none =>
        refine .goesOn q q' hq hq' ?_
        have hq₁ : q.address = q'.address := by
          rw [address_of_step hq, address_of_step hq', hnext, haddress]
        have hq₂ : q.stack.length = q'.stack.length := by
          rw [length_of_step hq, length_of_step hq', hlength]
          exact live_of_form_eq hform' _
        rw [sight, sight, hq₁, hq₂]

/-- Two runs end in the same way, but for the value that is returned, and look the same before each
    step. -/
structure Run.Alike (r r' : Run) : Prop where
  result : (∃ value value', r.result = .ok value ∧ r'.result = .ok value') ∨
    ∃ fault, r.result = .error fault ∧ r'.result = .error fault
  visited : r.visited.map sight = r'.visited.map sight

/-- Machines that look the same run in the same way. -/
theorem runFrom_of_sight_eq (h : c.SameForm c') (hm : m.sight = m'.sight) :
    (runFrom c m).Alike (runFrom c' m') := by
  -- Each step goes on in the code, so fewer bytes are left.
  induction hleft : c.length - m.address using Nat.strongRecOn generalizing m m' with
  | ind left ih =>
    cases step_of_sight_eq h hm with
    | goesOn q q' hq hq' hsight =>
      obtain ⟨hlt, hforward⟩ := address_lt_of_step hq
      obtain ⟨hresult, hvisited⟩ := ih (c.length - q.address) (by omega) hsight rfl
      rw [runFrom_of_none hq, runFrom_of_none hq']
      refine ⟨hresult, ?_⟩
      rw [List.map_cons, List.map_cons, hm, hvisited]
    | returns value value' q q' hq hq' =>
      rw [runFrom_of_some hq, runFrom_of_some hq']
      exact ⟨.inl ⟨value, value', rfl, rfl⟩, congrArg ([·]) hm⟩
    | fails cause q q' hq hq' =>
      have haddress : m.address = m'.address := congrArg Prod.fst hm
      rw [runFrom_of_error hq, runFrom_of_error hq', haddress]
      exact ⟨.inr ⟨_, rfl, rfl⟩, congrArg ([·]) hm⟩

end Machine

/-- **Faults do not depend on values.** Let two chunks have the same code and equally many
    constants. Whatever the constants are, and whatever the machines ran before, either both runs
    return a value or both fail with the same fault, after equally many steps, and with equally many
    values on the stack before each of them. -/
theorem run_valueIndependent (c c' : Chunk) (hcode : c.code = c'.code)
    (hsize : c.constants.size = c'.constants.size) (m m' : Machine) :
    ((∃ value value', (m.run c).result = .ok value ∧ (m'.run c').result = .ok value') ∨
      ∃ fault, (m.run c).result = .error fault ∧ (m'.run c').result = .error fault) ∧
    (m.run c).visited.length = (m'.run c').visited.length ∧
    (m.run c).visited.map (·.stack.length) = (m'.run c').visited.map (·.stack.length) := by
  have hruns : (m.run c).Alike (m'.run c') := Machine.runFrom_of_sight_eq ⟨hcode, hsize⟩ rfl
  have hlengths := congrArg (List.map Prod.snd) hruns.visited
  rw [List.map_map, List.map_map] at hlengths
  refine ⟨hruns.result, ?_, hlengths⟩
  have hcount := congrArg List.length hruns.visited
  rwa [List.length_map, List.length_map] at hcount

/-- A chunk that divides its first constant by its second one, and then lacks a value to add to the
    quotient. -/
def lackingSum (dividend divisor : Float) : Chunk where
  code := #[0, 0, 0, 1, 5, 2, 6]
  constants := #[dividend, divisor]

/-- A sum lacks a value in the same way behind the quotient of two numbers and behind that of an
    undefined and an infinite one. -/
theorem run_valueIndependent_lackingSum :
    (lackingSum 1 4).code = (lackingSum (0 / 0) (1 / 0)).code ∧
      ∃ fault, run (lackingSum 1 4) = .error fault ∧
        run (lackingSum (0 / 0) (1 / 0)) = .error fault := by
  have h := run_valueIndependent (lackingSum 1 4) (lackingSum (0 / 0) (1 / 0)) rfl rfl .initial
    .initial
  refine ⟨rfl, ?_⟩
  rcases h.1 with ⟨value, -, hvalue, -⟩ | hfault
  · have hfails : (run (lackingSum 1 4)).isOk = false := by decide +kernel
    rw [show run (lackingSum 1 4) = .ok value from hvalue] at hfails
    cases hfails
  · exact hfault

end Abacus
