import Abacus.Proofs.LimitDiagnostics
import Abacus.Proofs.WellFormed

namespace Abacus

/-!
# Constants without room

Compiling any text, grammatical or not, complains about every constant that finds no room, and that
the stack is too small only right behind such a complaint: an operand that waits on the stack was
pushed by a constant, and what takes operands off never adds one.

* `Assembly.perform_cases` — one action writes a number, or neither constants nor waiting operands
  become more.
* `Assembly.pending_le_perform` — so no more operands wait than there are constants.
* `overflows` — how many constants are said to have no room; `Assembly.overflows_remarksAll` counts
  the constants of which this is true.
* `StackBehindConstants` — the stack is too small only where a constant is one too many.
* `compileInto_overflows` — both for source texts.
-/

/-- How many diagnostics say that a constant has no room. -/
def overflows (ds : List Diagnostic) : Nat :=
  ds.countP (·.cause = .grammatical .tooManyConstants)

@[simp] theorem overflows_append (ds es : List Diagnostic) :
    overflows (ds ++ es) = overflows ds + overflows es :=
  List.countP_append

/-- Wherever a diagnostic says that the stack is too small, the one right before it says of the same
    place that a constant has no room. -/
def StackBehindConstants (ds : List Diagnostic) : Prop :=
  ∀ before d after, ds = before ++ d :: after → d.cause = .grammatical .tooDeepForStack →
    before.getLast? = some ⟨.grammatical .tooManyConstants, d.position⟩

namespace StackBehindConstants

variable {ds es : List Diagnostic}

/-- Where nothing says that the stack is too small, there is nothing to show. -/
theorem of_forall_ne (h : ∀ d ∈ ds, d.cause ≠ .grammatical .tooDeepForStack) :
    StackBehindConstants ds := by
  rintro before d after rfl hd
  exact absurd hd (h d (by simp))

theorem append (h : StackBehindConstants ds) (h' : StackBehindConstants es) :
    StackBehindConstants (ds ++ es) := by
  intro before d after heq hd
  rcases List.append_eq_append_iff.1 heq with ⟨bs, rfl, hes⟩ | ⟨bs, hds, hes⟩
  · have hlast := h' bs d after hes hd
    simp [hlast]
  · cases bs with
    | nil =>
      -- The diagnostic would be the first of its list, with none before it.
      have hlast := h' [] d after hes.symm hd
      simp at hlast
    | cons b bs =>
      injection hes with hb _
      subst hb
      exact h before d bs hds hd

end StackBehindConstants

/-- About a number the stack is mentioned only behind the constants. -/
theorem stackBehindConstants_limitRemarks (p : (Token × Nat) × Nat) :
    StackBehindConstants (limitRemarks p) := by
  obtain ⟨⟨t, count⟩, index⟩ := p
  by_cases hroom : index < constantMax
  · exact .of_forall_ne (by simp [limitRemarks, hroom])
  · by_cases hstack : count = stackMax + 1
    · intro before d after heq hd
      simp only [limitRemarks, hroom, hstack, if_true, if_false] at heq
      -- Of the two diagnostics only the second is about the stack.
      rcases List.cons_eq_append_iff.1 heq with ⟨rfl, hcons⟩ | ⟨bs, rfl, hcons⟩
      · injection hcons with hfirst _
        subst hfirst
        cases hd
      · rcases List.cons_eq_append_iff.1 hcons with ⟨rfl, hsecond⟩ | ⟨cs, -, hnil⟩
        · injection hsecond with hsecond _
          subst hsecond
          rfl
        · simp at hnil
    · exact .of_forall_ne (by simp [limitRemarks, hroom, hstack])

/-- A number overflows exactly if its index is beyond the last one of the pool. -/
theorem overflows_limitRemarks (t : Token) (count index : Nat) :
    overflows (limitRemarks ((t, count), index)) = if index < constantMax then 0 else 1 := by
  by_cases hroom : index < constantMax
  · simp [limitRemarks, overflows, hroom]
  · by_cases hstack : count = stackMax + 1 <;> simp [limitRemarks, overflows, hroom, hstack]

/-! ### One action -/

/-- The complaints that a limit on constants or on the stack is exceeded. -/
def roomComplaints : List Complaint := [.tooManyConstants, .tooDeepForStack]

/-- An action reports nothing about limits on constants or on the stack. -/
def Action.LeavesRoomAlone (x : Action) : Prop :=
  ∀ complaint t, x = .report complaint t → complaint ∉ roomComplaints

namespace Assembly

variable {a : Assembly} {x : Action} {as : List Action}

/-- One action writes a number, or it writes no constant, makes no more operands wait, and says
    nothing about room. -/
theorem perform_cases (a : Assembly) (hx : x.LeavesRoomAlone) :
    (∃ t value, x = .literal t ∧ Literal.read? t.lexeme = some value ∧
        (a.perform x).pending = a.pending + 1 ∧
        (a.perform x).chunk.constants.size = a.chunk.constants.size + 1) ∨
      (a.perform x).pending ≤ a.pending ∧
        (a.perform x).chunk.constants.size = a.chunk.constants.size ∧
        ∀ d ∈ a.remarks x, ∀ complaint ∈ roomComplaints, d.cause ≠ .grammatical complaint := by
  cases hsite : x.site? with
  | none =>
    obtain ⟨hconstants, hpending⟩ := a.perform_of_site? hsite
    refine .inr ⟨hpending, by rw [hconstants], ?_⟩
    intro d hd
    rcases mem_remarks hd with ⟨t, -, -, rfl⟩ | ⟨complaint, t, ht, -, -⟩
    · simp
    · simp [hsite] at ht
  | some t =>
    cases x with
    | literal u =>
      cases hv : Literal.read? u.lexeme with
      | none => exact .inr (by simp [perform, remarks, record, roomComplaints, hv])
      | some value =>
        have hadds := Adds.number a value u.position
        have hperform : a.perform (.literal u) = a.constant value u.position := by
          simp only [perform, hv]
        refine .inl ⟨u, value, rfl, hv, ?_, ?_⟩
        · rw [hperform, hadds.pending]
        · rw [hperform, hadds.size_eq]
          rfl
    | report complaint u =>
      have hne := hx complaint u rfl
      refine .inr ⟨Nat.le_refl _, rfl, ?_⟩
      simp only [remarks, List.mem_singleton, forall_eq, ne_eq, Diagnostic.Cause.grammatical.injEq]
      rintro room hroom rfl
      exact hne hroom
    | _ => cases hsite

/-- No more operands wait than there are constants, and one action keeps it so. -/
theorem pending_le_perform (hx : x.LeavesRoomAlone) (ha : a.pending ≤ a.chunk.constants.size) :
    (a.perform x).pending ≤ (a.perform x).chunk.constants.size := by
  rcases a.perform_cases hx with ⟨t, value, -, -, hpending, hsize⟩ | ⟨hpending, hsize, -⟩
  · omega
  · omega

/-- While no more values wait than there are constants, one action keeps the stack's complaints
    behind those about constants. -/
theorem stackBehindConstants_remarks (hx : x.LeavesRoomAlone)
    (ha : a.pending ≤ a.chunk.constants.size) : StackBehindConstants (a.remarks x) := by
  rcases a.perform_cases hx with ⟨t, value, rfl, hv, -, -⟩ | ⟨-, -, hnone⟩
  · rw [remarks_literal hv ha]
    exact stackBehindConstants_limitRemarks _
  · exact .of_forall_ne fun d hd => hnone d hd .tooDeepForStack (by decide)

/-- A constant is said to have no room exactly if it is added beyond the last index that fits. -/
theorem overflows_remarks (hx : x.LeavesRoomAlone) (ha : a.pending ≤ a.chunk.constants.size) :
    overflows (a.remarks x) + (a.chunk.constants.size - constantMax)
      = (a.perform x).chunk.constants.size - constantMax := by
  rcases a.perform_cases hx with ⟨t, value, rfl, hv, -, hsize⟩ | ⟨-, hsize, hnone⟩
  · rw [remarks_literal hv ha, overflows_limitRemarks, hsize]
    by_cases hroom : a.chunk.constants.size < constantMax
    · rw [if_pos hroom]
      omega
    · rw [if_neg hroom]
      omega
  · have hzero : overflows (a.remarks x) = 0 :=
      List.countP_eq_zero.2 fun d hd => by
        simpa using hnone d hd .tooManyConstants (by decide)
    omega

/-! ### All actions -/

/-- So do all actions. -/
theorem stackBehindConstants_remarksAll (hx : ∀ x ∈ as, x.LeavesRoomAlone)
    (ha : a.pending ≤ a.chunk.constants.size) : StackBehindConstants (a.remarksAll as) := by
  induction as generalizing a with
  | nil => exact .of_forall_ne (List.forall_mem_nil _)
  | cons x as ih =>
    rw [List.forall_mem_cons] at hx
    exact (stackBehindConstants_remarks hx.1 ha).append (ih hx.2 (pending_le_perform hx.1 ha))

/-- All that is said counts the constants that are added beyond the last index that fits. -/
theorem overflows_remarksAll (hx : ∀ x ∈ as, x.LeavesRoomAlone)
    (ha : a.pending ≤ a.chunk.constants.size) :
    overflows (a.remarksAll as) + (a.chunk.constants.size - constantMax)
      = (a.performAll as).chunk.constants.size - constantMax := by
  induction as generalizing a with
  | nil => simp [remarksAll, overflows]
  | cons x as ih =>
    rw [List.forall_mem_cons] at hx
    have hhead := overflows_remarks hx.1 ha
    have htail := ih hx.2 (pending_le_perform hx.1 ha)
    rw [remarksAll, overflows_append, performAll_cons, ← htail]
    omega

end Assembly

/-! ### Source texts -/

/-- Reading a stream reports nothing about limits on constants or on the stack. -/
theorem leavesRoomAlone_parse (s : TokenStream) : ∀ x ∈ parse s, x.LeavesRoomAlone := by
  rintro x hx complaint t rfl
  have hmem := complaint_mem_of_report_parse hx
  simp only [List.mem_cons, List.not_mem_nil, or_false] at hmem
  rcases hmem with rfl | rfl | rfl | rfl <;> decide

/-- Of a list counted on from an index, as many entries have an index that does not fit as the list
    reaches beyond the last one that does. -/
theorem countP_zipIdx_overflow {α : Type} (xs : List α) (first : Nat) :
    (xs.zipIdx first).countP (constantMax ≤ ·.2)
      = max (first + xs.length) constantMax - max first constantMax := by
  induction xs generalizing first with
  | nil => simp
  | cons x xs ih =>
    rw [List.zipIdx_cons, List.countP_cons, ih, List.length_cons]
    by_cases hroom : constantMax ≤ first
    · simp only [hroom, decide_true, if_true]
      omega
    · simp only [hroom, decide_false, if_false, Bool.false_eq_true]
      omega

/-- **The stack is never too small by itself, and complaints count the constants without room.**
    Whatever the source text is, and whatever the chunk holds already, a diagnostic that the stack
    is too small stands right behind one of the same place that a constant has no room, and there
    are as many of the latter as new constants with an index that does not fit. -/
theorem compileInto_overflows (chunk : Chunk) (source : String) :
    (∀ before d after, (compileInto chunk source).diagnostics = before ++ d :: after →
      d.cause.message = Complaint.tooDeepForStack.message →
        before.getLast? = some ⟨.grammatical .tooManyConstants, d.position⟩) ∧
    (∃ added : List Float,
      (compileInto chunk source).chunk.constants.toList = chunk.constants.toList ++ added ∧
      (compileInto chunk source).diagnostics.countP
          (·.cause.message = Complaint.tooManyConstants.message)
        = (added.zipIdx chunk.constants.size).countP (constantMax ≤ ·.2) ∧
      (added.zipIdx chunk.constants.size).countP (constantMax ≤ ·.2)
        = max (chunk.constants.size + added.length) constantMax
          - max chunk.constants.size constantMax) ∧
    Complaint.tooManyConstants.message = "Too many constants in one chunk." ∧
    Complaint.tooDeepForStack.message = "Expression too deep for the value stack." := by
  have hdiagnostics : (compileInto chunk source).diagnostics
      = Assembly.remarksAll { chunk } (parse (scan source)) :=
    Assembly.performAll_diagnostics _ _
  have hroom := leavesRoomAlone_parse (scan source)
  have hstart : (Assembly.mk chunk 0 #[]).pending ≤ chunk.constants.size := Nat.zero_le _
  refine ⟨?_, ?_, rfl, rfl⟩
  · intro before d after heq hm
    have hd : d ∈ (compileInto chunk source).diagnostics := by simp [heq]
    have hbehind := Assembly.stackBehindConstants_remarksAll hroom hstart
    rw [← hdiagnostics] at hbehind
    exact hbehind before d after heq (cause_eq_of_mem_diagnostics hd hm)
  · obtain ⟨is, added, hgrows, -⟩ := exists_grows_compileInto chunk source
    have hcount : overflows (compileInto chunk source).diagnostics
        + (chunk.constants.size - constantMax)
          = (compileInto chunk source).chunk.constants.size - constantMax := by
      rw [hdiagnostics]
      exact Assembly.overflows_remarksAll hroom hstart
    -- Only this complaint has its wording, so counting either comes to the same.
    have hwording : (compileInto chunk source).diagnostics.countP
        (·.cause.message = Complaint.tooManyConstants.message)
          = overflows (compileInto chunk source).diagnostics := by
      refine List.countP_congr fun d hd => ?_
      simp only [decide_eq_true_eq]
      exact ⟨cause_eq_of_mem_diagnostics hd, fun hcause => by rw [hcause]; rfl⟩
    have hzip := countP_zipIdx_overflow added chunk.constants.size
    refine ⟨added, hgrows.constants, ?_, hzip⟩
    rw [hgrows.size_eq] at hcount
    rw [hwording, hzip]
    omega

end Abacus
