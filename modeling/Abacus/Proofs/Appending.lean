import Abacus.Proofs.Preservation
import Abacus.Proofs.WellFormed

namespace Abacus

/-!
# Adding to a chunk does not change its run

A run reads a chunk from its beginning. What is added behind the code and behind the constants can
show only where the run lacks a byte or a constant.

* `Chunk.Begins c c'` — the code and the constants of `c'` begin with those of `c`.
* `Machine.step_of_begins` — a step in `c'` is the step in `c`, unless that lacks something.
* `Machine.runFrom_of_begins` — so is a run.
* `Chunk.Edit` — the ways in which a chunk is added to; `Chunk.begins_editAll` — each of them, and
  any row of them, keeps what was there.
* `run_of_begins` — what this means for values and faults, and for code that was compiled.
-/

/-! ### Chunks that begin alike -/

/-- The code and the constants of one chunk are the beginning of another's. -/
structure Chunk.Begins (c c' : Chunk) : Prop where
  code : c.code.toList <+: c'.code.toList
  constants : c.constants.toList <+: c'.constants.toList

namespace Chunk.Begins

variable {c c' c'' : Chunk}

theorem refl (c : Chunk) : c.Begins c := ⟨List.prefix_refl _, List.prefix_refl _⟩

theorem trans (h : c.Begins c') (h' : c'.Begins c'') : c.Begins c'' :=
  ⟨h.code.trans h'.code, h.constants.trans h'.constants⟩

/-- What is found at an index of a list is found there in every list that begins with it. -/
theorem getElem?_of_prefix {α : Type} {xs ys : List α} {index : Nat} {x : α} (h : xs <+: ys)
    (hx : xs[index]? = some x) : ys[index]? = some x := by
  obtain ⟨hlt, rfl⟩ := List.getElem?_eq_some_iff.1 hx
  exact List.prefix_iff_getElem?.1 h index hlt

/-- The bytes of a chunk are those of any that begins with it. -/
theorem byte?_eq (h : c.Begins c') {address : Nat} {b : UInt8} (hb : c.byte? address = some b) :
    c'.byte? address = some b := by
  rw [byte?, ← Array.getElem?_toList] at hb ⊢
  exact getElem?_of_prefix h.code hb

theorem constant?_eq (h : c.Begins c') {index : Nat} {value : Float}
    (hv : c.constant? index = some value) : c'.constant? index = some value := by
  rw [constant?, ← Array.getElem?_toList] at hv ⊢
  exact getElem?_of_prefix h.constants hv

end Chunk.Begins

/-! ### Lockstep -/

/-- A run fails because the code or the constants are too short. -/
def Fault.Cause.LacksMore : Fault.Cause → Prop
  | endOfChunk | invalidConstant _ => True
  | stackOverflow | stackUnderflow | unknownOpcode _ => False

/-- An instruction that fails, whatever is on the stack, because it lacks its operand, its constant
    or its opcode. -/
def Instruction.LacksMore (i : Instruction) : Prop :=
  ∃ cause, cause.LacksMore ∧ ∀ s, i.effect s = .error cause s

/-- In a chunk that begins with another, the same is decoded as there, unless that lacks more. -/
theorem Instruction.decode_of_begins {c c' : Chunk} (h : c.Begins c') (address : Nat) :
    decode c' address = decode c address ∨ (decode c address).1.LacksMore := by
  obtain ⟨i, next, hi⟩ := exists_stands c address
  rw [hi.decode_eq]
  cases hi with
  | pastEnd _ => exact .inr ⟨.endOfChunk, trivial, fun _ => rfl⟩
  | unknown hb ho => exact .inl (Stands.unknown (h.byte?_eq hb) ho).decode_eq
  | truncated _ _ => exact .inr ⟨.endOfChunk, trivial, fun _ => rfl⟩
  | @constant index hcode =>
    have hcode' : c'.Holds address [Opcode.constant.byte, index] :=
      ⟨h.byte?_eq hcode.1, h.byte?_eq hcode.2.1, trivial⟩
    rw [(Stands.constant hcode').decode_eq]
    cases hv : c.constant? index.toNat with
    | none => exact .inr ⟨.invalidConstant index, trivial, fun _ => rfl⟩
    | some value => rw [h.constant?_eq hv]; exact .inl rfl
  | simple hb hc => exact .inl (Stands.simple (h.byte?_eq hb) hc).decode_eq

namespace Machine

/-- A step in a chunk that begins with another is the step in that one, unless it lacks more. -/
theorem step_of_begins {c c' : Chunk} (h : c.Begins c') (m : Machine) :
    step c' m = step c m ∨ ∃ cause m', cause.LacksMore ∧ step c m = .error cause m' := by
  rcases Instruction.decode_of_begins h m.address with hd | ⟨cause, hlacks, heffect⟩
  · left
    rw [step_eq_effect, step_eq_effect, hd]
  · right
    refine ⟨cause, ⟨(Instruction.decode c m.address).2, m.stack⟩, hlacks, ?_⟩
    rw [step_eq_effect, onStack, heffect]

/-- A run that does not fail for lack of code or constants goes the same way in every chunk that
    begins with its own. -/
theorem runFrom_of_begins {c c' : Chunk} (h : c.Begins c') (m : Machine)
    (hr : ∀ fault, (runFrom c m).result = .error fault → ¬ fault.cause.LacksMore) :
    runFrom c' m = runFrom c m := by
  fun_induction runFrom c m with
  | case1 m m' hstep _ r ih =>
    have hrest := ih hr
    rcases step_of_begins h m with hs | ⟨cause, m₁, -, hs⟩
    · rw [runFrom_of_none (hs.trans hstep), hrest]
    · rw [hstep] at hs
      cases hs
  | case2 m value m' hstep =>
    rcases step_of_begins h m with hs | ⟨cause, m₁, -, hs⟩
    · exact runFrom_of_some (hs.trans hstep)
    · rw [hstep] at hs
      cases hs
  | case3 m cause m' hstep =>
    rcases step_of_begins h m with hs | ⟨cause', m₁, hlacks, hs⟩
    · exact runFrom_of_error (hs.trans hstep)
    · rw [hstep] at hs
      injection hs with hcause _
      rw [← hcause] at hlacks
      exact absurd hlacks (hr _ rfl)

end Machine

/-! ### Ways to add to a chunk -/

namespace Chunk

/-- Something that is done to a chunk. -/
inductive Edit where
  /-- A source text is compiled, with success or not. -/
  | compile (source : String)
  | write (byte : UInt8)
  | emit (opcode : Opcode)
  | addConstant (value : Float)

/-- The chunk after something was done to it. -/
def edit (c : Chunk) : Edit → Chunk
  | .compile source => (compileInto c source).chunk
  | .write byte => c.write byte
  | .emit opcode => c.emit opcode
  | .addConstant value => (c.addConstant value).2

/-- The chunk after several things were done to it, one after the other. -/
def editAll (c : Chunk) (edits : List Edit) : Chunk := edits.foldl edit c

/-- Nothing that is done to a chunk changes what was there. -/
theorem begins_edit (c : Chunk) (e : Edit) : c.Begins (c.edit e) := by
  cases e with
  | compile source =>
    obtain ⟨is, vs, hg, -⟩ := exists_grows_compileInto c source
    exact ⟨⟨_, hg.code.symm⟩, ⟨_, hg.constants.symm⟩⟩
  | write byte => exact ⟨⟨_, (code_write c byte).symm⟩, List.prefix_refl _⟩
  | emit opcode => exact ⟨⟨_, (code_emit c opcode).symm⟩, List.prefix_refl _⟩
  | addConstant value => exact ⟨List.prefix_refl _, ⟨_, (constants_addConstant c value).symm⟩⟩

/-- Whatever is added to a chunk, it begins with the chunk. -/
theorem begins_editAll (c : Chunk) (edits : List Edit) : c.Begins (c.editAll edits) := by
  induction edits generalizing c with
  | nil => exact .refl c
  | cons e edits ih => exact (c.begins_edit e).trans (ih (c.edit e))

end Chunk

/-- A fault that is neither the end of the code nor a missing constant does not ask for more. -/
theorem Fault.Cause.not_lacksMore {cause : Fault.Cause} (hend : cause ≠ .endOfChunk)
    (hconstant : ∀ index, cause ≠ .invalidConstant index) : ¬ cause.LacksMore := by
  cases cause with
  | endOfChunk => exact absurd rfl hend
  | invalidConstant index => exact absurd rfl (hconstant index)
  | _ => exact id

/-- **What a chunk runs to is stable under adding to it.** If a run gives a value, or fails neither
    at the end of the code nor for a missing constant, then every chunk that begins with this one
    gives the same value or the same fault. So once a source text has compiled into a new chunk,
    whatever is done to the chunk later leaves its value as it is. -/
theorem run_of_begins :
    (∀ c c' : Chunk, c.Begins c' →
      (∀ fault, run c = .error fault →
        fault.cause ≠ .endOfChunk ∧ ∀ index, fault.cause ≠ .invalidConstant index) →
          run c' = run c) ∧
    ∀ (source : String) (edits : List Chunk.Edit),
      (compileInto .empty source).diagnostics = [] →
        run ((compileInto .empty source).chunk.editAll edits)
          = run (compileInto .empty source).chunk := by
  have stable : ∀ {c c' : Chunk}, c.Begins c' →
      (∀ fault, run c = .error fault → ¬ fault.cause.LacksMore) → run c' = run c :=
    fun h hr => congrArg Machine.Run.result (Machine.runFrom_of_begins h .initial hr)
  refine ⟨?_, ?_⟩
  · intro c c' h hfault
    refine stable h ?_
    intro fault hrun
    obtain ⟨hend, hconstant⟩ := hfault fault hrun
    exact Fault.Cause.not_lacksMore hend hconstant
  · intro source edits hquiet
    -- What compiles gives a value, so there is no fault to consider.
    have hcompile : compile source = .ok (compileInto .empty source).chunk :=
      compile_eq_ok_iff.2 ⟨hquiet, rfl⟩
    obtain ⟨-, e, x, -, -, -, hfit, hcode⟩ := exists_isCodeOf_of_compile hcompile
    have hvalue : run (compileInto .empty source).chunk = .ok x.value :=
      (hcode.completes hfit).result
    refine stable (Chunk.begins_editAll _ edits) ?_
    intro fault hrun
    rw [hvalue] at hrun
    cases hrun

/-- What `1 / 4` compiles to keeps its value, also when a text that does not compile, a byte of no
    opcode and a constant are added; and a byte of no opcode is found wrong whatever follows it. -/
theorem run_of_begins_quarter :
    (compileInto .empty "1 / 4").diagnostics = [] ∧
      run ((compileInto .empty "1 / 4").chunk.editAll
          [.compile "2 +)", .write 250, .addConstant 7])
        = run (compileInto .empty "1 / 4").chunk ∧
      run ⟨#[200, 1, 6], #[3]⟩ = .error ⟨.unknownOpcode 200, 0⟩ := by
  have hquiet : (compileInto .empty "1 / 4").diagnostics = [] := by decide +kernel
  have hstep : Machine.step ⟨#[200], #[]⟩ .initial = .error (.unknownOpcode 200) ⟨1, .empty⟩ := rfl
  have hunknown : run ⟨#[200], #[]⟩ = .error ⟨.unknownOpcode 200, 0⟩ :=
    congrArg Machine.Run.result (Machine.runFrom_of_error hstep)
  have hbegins : Chunk.Begins ⟨#[200], #[]⟩ ⟨#[200, 1, 6], #[3]⟩ := ⟨⟨[1, 6], rfl⟩, ⟨[3], rfl⟩⟩
  refine ⟨hquiet, run_of_begins.2 "1 / 4" _ hquiet, ?_⟩
  rw [run_of_begins.1 _ _ hbegins, hunknown]
  intro fault hfault
  rw [hunknown] at hfault
  injection hfault with hfault
  rw [← hfault]
  exact ⟨by decide, by simp⟩

end Abacus
