import Abacus.Compilation
import Abacus.Proofs.Emission
import Abacus.Proofs.Execution
import Abacus.Proofs.Reading

namespace Abacus

/-!
# Compiled code is well formed

Compiling adds code to a chunk, whether or not it finds something wrong. What it adds can always be
carried out as far as the stack allows.

* `exists_grows_compileInto` — compiling adds proper instructions and one return after them.
* `Machine.ofStack_of_runFrom` — such code fails only because of the stack.
* `Chunk.ExtendsWell` — what this means for the listing of what was added.
* `compileInto_wellFormed` — all of it for source texts.
-/

/-! ### What is added -/

/-- Compiling adds proper instructions to a chunk and one return after them. -/
theorem exists_grows_compileInto (chunk : Chunk) (source : String) :
    ∃ is vs, chunk.Grows (compileInto chunk source).chunk (is ++ [.simple .ret]) vs ∧
      ∀ i ∈ is, i ≠ .simple .ret := by
  obtain ⟨as, hparse, hinner⟩ := exists_parse_eq (scan source)
  obtain ⟨is, vs, hg, hret⟩ := Assembly.exists_grows { chunk } hinner
  have hlast : (compileInto chunk source).chunk
      = ((Assembly.performAll { chunk } as).chunk).emit .ret := by
    show (Assembly.performAll { chunk } (parse (scan source))).chunk = _
    rw [hparse, Assembly.performAll_append]
    rfl
  refine ⟨is, vs, ?_, hret⟩
  rw [hlast, ← List.append_nil vs]
  exact hg.trans (.emit _ (by decide))

/-! ### How it can fail -/

/-- The stack is full or lacks a value. -/
def Fault.Cause.OfStack (cause : Fault.Cause) : Prop :=
  cause = .stackOverflow ∨ cause = .stackUnderflow

/-- An operation that fails only because the stack is full or lacks a value. -/
def Stack.FailsAsStack {β : Type} (op : Stack.Op stackMax Float β) : Prop :=
  ∀ ⦃s s' : Stack stackMax Float⦄ ⦃cause : Fault.Cause⦄, op s = .error cause s' → cause.OfStack

namespace Stack.FailsAsStack

variable {β γ : Type}

theorem pure (b : β) : FailsAsStack (pure b) := by
  intro s s' cause h
  cases h

theorem bind {op : Stack.Op stackMax Float β} {f : β → Stack.Op stackMax Float γ}
    (hop : FailsAsStack op) (hf : ∀ b, FailsAsStack (f b)) : FailsAsStack (op >>= f) := by
  intro s s' cause h
  simp only [Bind.bind, EStateM.bind] at h
  split at h
  · exact hf _ h
  · next h₁ =>
    injection h with h _
    rw [← h]
    exact hop h₁

theorem push (value : Float) : FailsAsStack (Stack.push value) := by
  intro s s' cause h
  unfold Stack.push at h
  split at h
  · cases h
  · injection h with h _
    exact .inl h.symm

theorem pop : FailsAsStack Stack.pop := by
  intro s s' cause h
  unfold Stack.pop at h
  split at h
  · injection h with h _
    exact .inr h.symm
  · cases h

theorem replaceTwo (f : Float → Float → Float) : FailsAsStack (Stack.replaceTwo f) :=
  .bind (.bind .pop fun _ => .bind .pop fun _ => .pure _) fun _ =>
    .bind (.push _) fun _ => .pure _

/-- Where an instruction can be carried out, only the stack can stop it. -/
theorem effect {c : Chunk} {i : Instruction} (h : i.ProperIn c) : FailsAsStack i.effect := by
  cases i with
  | constant index value =>
    obtain ⟨x, rfl⟩ := Option.ne_none_iff_exists'.1 h.1
    exact .bind (.push x) fun _ => .pure _
  | simple opcode =>
    cases opcode with
    | constant => exact absurd rfl h
    | negate => exact .bind .pop fun _ => .bind (.push _) fun _ => .pure _
    | ret => exact .bind .pop fun _ => .pure _
    | _ => exact .replaceTwo _
  | truncated _ => exact h.elim
  | unknown _ => exact h.elim
  | pastEnd => exact h.elim

end Stack.FailsAsStack

namespace Machine

variable {chunk : Chunk} {m m' : Machine}

/-- Where a proper instruction stands, a step fails only because of the stack. -/
theorem ofStack_of_step {i : Instruction} (hp : i.ProperIn chunk)
    (hcode : chunk.Holds m.address i.encode) {cause : Fault.Cause}
    (h : step chunk m = .error cause m') : cause.OfStack := by
  rw [step_eq_effect, Instruction.decode_of_holds hp hcode, onStack] at h
  split at h
  · cases h
  · next h₁ =>
    injection h with h _
    rw [← h]
    exact Stack.FailsAsStack.effect hp h₁

/-- A return never lets a run go on. -/
theorem step_ret_ne_none (hcode : chunk.byte? m.address = some Opcode.ret.byte) :
    step chunk m ≠ .ok none m' := by
  intro h
  refine decode_of_step_none h ?_
  rw [Instruction.decode_simple hcode (by decide)]

/-- A run over proper instructions up to a return fails only because of the stack. -/
theorem ofStack_of_runFrom {is : List Instruction} (hp : ∀ i ∈ is, i.ProperIn chunk)
    (hcode : chunk.Holds m.address ((is ++ [Instruction.simple .ret]).flatMap Instruction.encode))
    {fault : Fault} (h : (runFrom chunk m).result = .error fault) : fault.cause.OfStack := by
  induction is generalizing m with
  | nil =>
    -- The return stands here, and it ends the run in any case.
    cases hstep : step chunk m with
    | ok v m' =>
      cases v with
      | none => exact absurd hstep (step_ret_ne_none hcode.1)
      | some value => rw [runFrom_of_some hstep] at h; cases h
    | error cause m' =>
      rw [runFrom_of_error hstep] at h
      injection h with h
      rw [← h]
      have hret : (Instruction.simple .ret).ProperIn chunk := by
        show Opcode.ret ≠ .constant
        decide
      exact ofStack_of_step hret hcode hstep
  | cons i is ih =>
    have hi := hp i (List.mem_cons_self ..)
    rw [List.cons_append, List.flatMap_cons, Chunk.holds_append] at hcode
    cases hstep : step chunk m with
    | ok v m' =>
      cases v with
      | none =>
        rw [runFrom_of_none hstep] at h
        -- The run goes on behind the instruction, where the others stand.
        have ha := address_of_step hstep
        rw [Instruction.decode_of_holds hi hcode.1] at ha
        exact ih (fun j hj => hp j (List.mem_cons_of_mem _ hj)) (ha ▸ hcode.2) h
      | some value => rw [runFrom_of_some hstep] at h; cases h
    | error cause m' =>
      rw [runFrom_of_error hstep] at h
      injection h with h
      rw [← h]
      exact ofStack_of_step hi hcode.1 hstep

end Machine

/-! ### Source texts -/

/-- A chunk is another one with the code of one expression added, good or bad: what was there is
    kept, decoding from the old end on gives instructions that can be carried out, of which only
    the last one returns, and the constants that they push are the new ones in order, except that
    the first of all stands in for those without room in an operand byte. -/
structure Chunk.ExtendsWell (c c' : Chunk) : Prop where
  code : c.code.toList <+: c'.code.toList
  constants : c.constants.toList <+: c'.constants.toList
  proper : ∀ p ∈ c'.listingFrom c.length, p.2.ProperIn c'
  ret : ∃ before, c'.listingFrom c.length = before ++ [(c'.length - 1, .simple .ret)] ∧
    ∀ p ∈ before, p.2 ≠ .simple .ret
  operands : ((c'.listingFrom c.length).filterMap (·.2.operand?)).map UInt8.toNat
    = (List.range (c'.constants.size - c.constants.size)).map fun j =>
      if c.constants.size + j < constantMax then c.constants.size + j else 0

/-- A chunk that grows by instructions with one return at their end is extended well. -/
theorem Chunk.Grows.extendsWell {c c' : Chunk} {is : List Instruction} {vs : List Float}
    (h : c.Grows c' (is ++ [.simple .ret]) vs) (hret : ∀ i ∈ is, i ≠ .simple .ret) :
    c.ExtendsWell c' := by
  have hlisting := h.listingFrom_eq
  have hsnd := Instruction.map_snd_place c.length (is ++ [.simple .ret])
  rw [← hlisting] at hsnd
  refine ⟨⟨_, h.code.symm⟩, ⟨_, h.constants.symm⟩, ?_, ?_, ?_⟩
  · intro p hp
    refine h.proper p.2 ?_
    rw [← hsnd]
    exact List.mem_map_of_mem hp
  · refine ⟨Instruction.place c.length is, ?_, ?_⟩
    · have hlast : c'.length - 1 = c.length + (is.flatMap Instruction.encode).length := by
        rw [h.length_eq, List.flatMap_append, List.length_append]
        rfl
      rw [hlisting, Instruction.place_append, hlast]
      rfl
    · intro p hp
      refine hret p.2 ?_
      rw [← Instruction.map_snd_place c.length is]
      exact List.mem_map_of_mem hp
  -- The operands are the bytes of successive indices.
  · have hoperands : (c'.listingFrom c.length).filterMap (·.2.operand?)
        = (List.range' c.constants.size vs.length).map operandByte := by
      rw [← h.operands, ← hsnd, List.filterMap_map]
      rfl
    have hcount : c'.constants.size - c.constants.size = vs.length := by
      rw [h.size_eq, Nat.add_sub_cancel_left]
    rw [hoperands, hcount, List.range'_eq_map_range, List.map_map, List.map_map]
    exact List.map_congr_left fun j _ => toNat_operandByte (c.constants.size + j)

/-- **Compiling writes well-formed code,** whether or not something is wrong with the source. So
    the code of a new chunk fails only because of the stack. -/
theorem compileInto_wellFormed (chunk : Chunk) (source : String) :
    chunk.ExtendsWell (compileInto chunk source).chunk ∧
      ∀ fault, run (compileInto .empty source).chunk = .error fault →
        fault.cause = .stackOverflow ∨ fault.cause = .stackUnderflow := by
  obtain ⟨is, vs, hg, hret⟩ := exists_grows_compileInto chunk source
  refine ⟨hg.extendsWell hret, ?_⟩
  intro fault hrun
  obtain ⟨js, ws, hg', -⟩ := exists_grows_compileInto .empty source
  have hp : ∀ i ∈ js, i.ProperIn _ := fun i hi => hg'.proper i (List.mem_append_left _ hi)
  exact Machine.ofStack_of_runFrom hp hg'.holds hrun

end Abacus
