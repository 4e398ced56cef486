import Abacus.Assembly
import Abacus.Proofs.Decoding
import Abacus.Proofs.Lookahead
import Abacus.Proofs.Expr

namespace Abacus

/-!
# What actions leave in a chunk

* `Assembly.constant_chunk`, `Assembly.constant_diagnostics` — how a number enters a chunk, and
  what is said about it.
* `Chunk.Grows c c' is vs` — `c'` is `c` with the instructions `is` and the constants `vs` added.
* `Assembly.exists_grows` — whatever actions a parser takes, a chunk only grows, by instructions
  that can be carried out.
* `Assembly.diagnostics_mono` — what was found wrong is never taken back.
-/

namespace Assembly

/-! ### Numbers -/

@[simp] theorem complainIf_chunk (a : Assembly) (condition : Bool) (complaint : Complaint)
    (position : Position) : (a.complainIf condition complaint position).chunk = a.chunk := by
  cases condition <;> rfl

@[simp] theorem complainIf_pending (a : Assembly) (condition : Bool) (complaint : Complaint)
    (position : Position) : (a.complainIf condition complaint position).pending = a.pending := by
  cases condition <;> rfl

/-- A complaint is added to the diagnostics if its condition holds. -/
theorem complainIf_diagnostics (a : Assembly) (condition : Bool) (complaint : Complaint)
    (position : Position) :
    (a.complainIf condition complaint position).diagnostics.toList
      = a.diagnostics.toList ++ if condition then [⟨.grammatical complaint, position⟩] else [] := by
  cases condition with
  | false => exact (List.append_nil _).symm
  | true => exact Array.toList_push

/-- A constant is added to the pool, and an instruction that pushes it to the code, whether there is
    room for it or not. -/
theorem constant_chunk (a : Assembly) (value : Float) (position : Position) :
    (a.constant value position).chunk
      = ((a.chunk.addConstant value).2.emit .constant).write
          (operandByte a.chunk.constants.size) := by
  rw [constant, complainIf_chunk, complainIf_chunk]
  rfl

/-- A constant is one more value that waits. -/
theorem constant_pending (a : Assembly) (value : Float) (position : Position) :
    (a.constant value position).pending = a.pending + 1 := by
  rw [constant, complainIf_pending, complainIf_pending]

/-- A constant is complained about if the pool has no room for it, and then if the stack has just
    run out of room. -/
theorem constant_diagnostics (a : Assembly) (value : Float) (position : Position) :
    (a.constant value position).diagnostics.toList
      = a.diagnostics.toList
        ++ (if a.chunk.constants.size < constantMax then []
          else [⟨.grammatical .tooManyConstants, position⟩])
        ++ (if a.pending + 1 = stackMax + 1 then [⟨.grammatical .tooDeepForStack, position⟩]
          else []) := by
  rw [constant, complainIf_diagnostics, complainIf_diagnostics, complainIf_pending]
  simp only [Chunk.addConstant]
  by_cases hfit : a.chunk.constants.size < constantMax
  · simp [hfit]
  · simp [hfit]

end Assembly

/-! ### Growing chunks -/

namespace Chunk

@[simp] theorem code_write (c : Chunk) (byte : UInt8) :
    (c.write byte).code.toList = c.code.toList ++ [byte] :=
  Array.toList_push

@[simp] theorem constants_write (c : Chunk) (byte : UInt8) :
    (c.write byte).constants = c.constants := rfl

@[simp] theorem code_emit (c : Chunk) (opcode : Opcode) :
    (c.emit opcode).code.toList = c.code.toList ++ [opcode.byte] :=
  Array.toList_push

@[simp] theorem constants_emit (c : Chunk) (opcode : Opcode) :
    (c.emit opcode).constants = c.constants := rfl

@[simp] theorem code_addConstant (c : Chunk) (value : Float) :
    (c.addConstant value).2.code = c.code := rfl

/-- A constant is added behind the others. -/
@[simp] theorem constants_addConstant (c : Chunk) (value : Float) :
    (c.addConstant value).2.constants.toList = c.constants.toList ++ [value] :=
  Array.toList_push

/-- A chunk is another one with some instructions and constants added. The instructions can be
    carried out, and those that push constants push the new ones in order. -/
structure Grows (c c' : Chunk) (is : List Instruction) (vs : List Float) : Prop where
  code : c'.code.toList = c.code.toList ++ is.flatMap Instruction.encode
  constants : c'.constants.toList = c.constants.toList ++ vs
  proper : ∀ i ∈ is, i.ProperIn c'
  operands : is.filterMap Instruction.operand?
    = (List.range' c.constants.size vs.length).map operandByte

namespace Grows

variable {c c' c'' : Chunk} {is js : List Instruction} {vs ws : List Float}

theorem refl (c : Chunk) : Grows c c [] [] where
  code := (List.append_nil _).symm
  constants := (List.append_nil _).symm
  proper := List.forall_mem_nil _
  operands := rfl

/-- The pool grows by the constants that are added. -/
theorem size_eq (h : Grows c c' is vs) : c'.constants.size = c.constants.size + vs.length := by
  rw [← Array.length_toList, h.constants, List.length_append, Array.length_toList]

/-- A constant stays where it is. -/
theorem constant?_eq (h : Grows c c' is vs) {index : Nat} {value : Float}
    (hc : c.constant? index = some value) : c'.constant? index = some value := by
  rw [constant?, ← Array.getElem?_toList] at hc ⊢
  rw [h.constants]
  exact List.getElem?_append_left (List.getElem?_eq_some_iff.1 hc).1 ▸ hc

/-- An instruction that is proper in a chunk stays so when the chunk grows. -/
theorem properIn (h : Grows c c' is vs) {i : Instruction} (hi : i.ProperIn c) :
    i.ProperIn c' := by
  cases i with
  | constant index value =>
    obtain ⟨hne, hc⟩ := hi
    obtain ⟨x, rfl⟩ := Option.ne_none_iff_exists'.1 hne
    exact ⟨hne, h.constant?_eq hc⟩
  | simple opcode => exact hi
  | truncated _ => exact hi
  | unknown _ => exact hi
  | pastEnd => exact hi

/-- What is added first and what is added then are added together. -/
theorem trans (h : Grows c c' is vs) (h' : Grows c' c'' js ws) :
    Grows c c'' (is ++ js) (vs ++ ws) where
  code := by rw [h'.code, h.code, List.flatMap_append, List.append_assoc]
  constants := by rw [h'.constants, h.constants, List.append_assoc]
  proper := List.forall_mem_append.2 ⟨fun i hi => h'.properIn (h.proper i hi), h'.proper⟩
  operands := by
    rw [List.filterMap_append, h.operands, h'.operands, h.size_eq, ← List.map_append,
      List.range'_append_1, List.length_append]

/-- An opcode without an operand is added. -/
theorem emit (c : Chunk) {opcode : Opcode} (h : opcode ≠ .constant) :
    Grows c (c.emit opcode) [.simple opcode] [] where
  code := code_emit c opcode
  constants := (List.append_nil _).symm
  proper := List.forall_mem_singleton.2 h
  operands := rfl

/-- A constant is added with an instruction that pushes it, or the first constant. -/
theorem constant (c : Chunk) (value : Float) :
    ∃ x, Grows c
      (((c.addConstant value).2.emit .constant).write (operandByte c.constants.size))
      [.constant (operandByte c.constants.size) (some x)] [value] := by
  -- The operand never exceeds the index of the new constant, so there is a constant.
  have hlt : (operandByte c.constants.size).toNat < (c.constants.push value).size := by
    rw [Array.size_push]
    exact Nat.lt_succ_of_le (toNat_operandByte_le _)
  refine ⟨(c.constants.push value)[(operandByte c.constants.size).toNat], ?_, ?_, ?_, rfl⟩
  · rw [code_write, code_emit, code_addConstant, List.append_assoc]
    rfl
  · rw [constants_write, constants_emit, constants_addConstant]
  · rw [List.forall_mem_singleton]
    exact ⟨Option.some_ne_none _, Array.getElem?_eq_getElem hlt⟩

/-- The code grows by the bytes of the instructions that are added. -/
theorem length_eq (h : Grows c c' is vs) :
    c'.length = c.length + (is.flatMap Instruction.encode).length := by
  have hlen := congrArg List.length h.code
  rwa [List.length_append, Array.length_toList, Array.length_toList] at hlen

/-- The added bytes stand where the code ended before. -/
theorem holds (h : Grows c c' is vs) : c'.Holds c.length (is.flatMap Instruction.encode) := by
  have hcode : c'.code.toList = c.code.toList ++ (is.flatMap Instruction.encode ++ []) := by
    rw [List.append_nil]
    exact h.code
  have hb := holds_of_code_eq hcode
  rwa [Array.length_toList] at hb

/-- What was added is listed from the old end on. -/
theorem listingFrom_eq (h : Grows c c' is vs) :
    c'.listingFrom c.length = Instruction.place c.length is :=
  listingFrom_of_holds h.proper h.holds h.length_eq.symm

end Grows

end Chunk

namespace Assembly

/-- One action adds instructions that can be carried out, and no return. -/
theorem exists_grows_perform (a : Assembly) {action : Action} {ts : List Token}
    (h : action.InnerTo ts) :
    ∃ is vs, Chunk.Grows a.chunk (a.perform action).chunk is vs ∧ ∀ i ∈ is, i ≠ .simple .ret := by
  have none : ∀ i ∈ ([] : List Instruction), i ≠ .simple .ret := List.forall_mem_nil _
  cases action with
  | scan t =>
    rw [perform]
    split <;> exact ⟨[], [], .refl _, none⟩
  | literal t =>
    -- A number that cannot be read adds nothing.
    rw [perform]
    split
    · next value _ =>
      rw [constant_chunk]
      obtain ⟨x, hx⟩ := Chunk.Grows.constant a.chunk value
      exact ⟨_, _, hx, List.forall_mem_singleton.2 (by simp)⟩
    · exact ⟨[], [], .refl _, none⟩
  | emit opcode =>
    refine ⟨_, _, .emit a.chunk h.1, List.forall_mem_singleton.2 ?_⟩
    rw [ne_eq, Instruction.simple.injEq]
    exact h.2
  | _ => exact ⟨[], [], .refl _, none⟩

/-- Whatever actions are taken inside an expression, instructions are added that can be carried out,
    and no return. -/
theorem exists_grows (a : Assembly) {as : List Action} {ts : List Token}
    (h : ∀ x ∈ as, x.InnerTo ts) :
    ∃ is vs, Chunk.Grows a.chunk (a.performAll as).chunk is vs ∧ ∀ i ∈ is, i ≠ .simple .ret := by
  induction as generalizing a with
  | nil => exact ⟨[], [], .refl _, List.forall_mem_nil _⟩
  | cons action as ih =>
    obtain ⟨is, vs, hg, hr⟩ := a.exists_grows_perform (h action (List.mem_cons_self ..))
    obtain ⟨js, ws, hg', hr'⟩ := ih (a.perform action) fun x hx => h x (List.mem_cons_of_mem _ hx)
    exact ⟨is ++ js, vs ++ ws, hg.trans hg', List.forall_mem_append.2 ⟨hr, hr'⟩⟩

/-! ### Diagnostics -/

/-- What is said about an action, given what the chunk holds already. -/
def remarks (a : Assembly) : Action → List Diagnostic
  | .scan t => if t.isError then [⟨.lexical t.lexeme, t.position⟩] else []
  | .literal t =>
    match Literal.read? t.lexeme with
    | some _ =>
      (if a.chunk.constants.size < constantMax then []
        else [⟨.grammatical .tooManyConstants, t.position⟩])
      ++ (if a.pending + 1 = stackMax + 1 then [⟨.grammatical .tooDeepForStack, t.position⟩]
        else [])
    | none => [⟨.grammatical .invalidNumber, t.position⟩]
  | .report complaint t => [⟨.grammatical complaint, t.position⟩]
  | .emit _ | .merge | .consume _ | .enter | .leave | .extend _ | .apply _ _ => []

/-- What an action has to remark is added to the diagnostics. -/
theorem perform_diagnostics (a : Assembly) (action : Action) :
    (a.perform action).diagnostics.toList = a.diagnostics.toList ++ a.remarks action := by
  cases action with
  | scan t =>
    rw [perform, remarks]
    split
    · exact Array.toList_push
    · exact (List.append_nil _).symm
  | literal t =>
    cases hv : Literal.read? t.lexeme with
    | none =>
      simp only [perform, remarks, hv]
      exact Array.toList_push
    | some value =>
      simp only [perform, remarks, hv]
      rw [constant_diagnostics, List.append_assoc]
  | report complaint t => exact Array.toList_push
  | _ => exact (List.append_nil _).symm

/-- What was found wrong is never taken back. -/
theorem diagnostics_mono (a : Assembly) (as : List Action) :
    a.diagnostics.toList <+: (a.performAll as).diagnostics.toList := by
  induction as generalizing a with
  | nil => exact List.prefix_refl _
  | cons action as ih =>
    have h := ih (a.perform action)
    rw [perform_diagnostics] at h
    exact (List.prefix_append _ _).trans h

end Assembly

end Abacus
