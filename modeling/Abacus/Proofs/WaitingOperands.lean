import Abacus.Proofs.Appending
import Abacus.Proofs.CallDepth
import Abacus.Proofs.StackNeed

namespace Abacus

open Abacus.Parser (advance)

/-!
# Operands that wait are values on the stack

A chunk in the making counts the operands that wait, without running any code. Where an operand is
read and nothing is found wrong, this count is the one that a machine arrives at: an operator takes
two operands that are there, so taking one off the count never stops at zero.

* `Action.waiting`, `Action.live` — how an action changes the operands that wait, and the values
  that the code so far leaves on a stack.
* `Trades i j as` — the actions take `i` operands and leave `j`, and on their way the two counts
  agree, but for an operator that is written and not yet counted.
* `Reads.trades` — reading an operand takes none and leaves one.
* `Assembly.Quiet.exists_grows_live` — the instructions that are written leave as many values as are
  counted.
* `Chunk.Gains`, `Assembly.Adds.exists_gains` — so does a machine that runs them.
-/

/-! ### Two counts -/

/-- How many operands wait behind an action that finds nothing wrong, from how many wait before
    it. -/
def Action.waiting (before : Nat) : Action → Nat
  | .literal _ => before + 1
  | .merge => before - 1
  | .scan _ | .consume _ | .enter | .leave | .extend _ | .apply _ _ => before
  | .emit _ | .report _ _ => before

/-- How many values are on a stack behind the code that an action writes, from how many there are
    before it. -/
def Action.live (before : Nat) : Action → Nat
  | .literal _ => before + 1
  | .emit opcode => (Instruction.simple opcode).live before
  | .scan _ | .consume _ | .enter | .leave | .extend _ | .apply _ _ => before
  | .merge | .report _ _ => before

/-- An action that neither writes an instruction nor counts one. -/
def Action.isStill : Action → Bool
  | .literal _ | .emit _ | .merge => false
  | .scan _ | .consume _ | .enter | .leave | .extend _ | .apply _ _ | .report _ _ => true

/-- How many operands are counted too many before some actions: one, where an operator has been
    written and is only now to be counted. -/
def uncounted : List Action → Nat
  | .merge :: _ => 1
  | _ => 0

@[simp] theorem uncounted_nil : uncounted [] = 0 := rfl

/-- An operator leaves one value less. -/
theorem BinaryOp.live_opcode (op : BinaryOp) (n : Nat) :
    (Instruction.simple op.opcode).live n = n - 1 := by
  cases op <;> rfl

/-- A still action changes no count of waiting operands. -/
theorem Action.waiting_of_isStill {x : Action} (h : x.isStill = true) (n : Nat) :
    x.waiting n = n := by
  cases x <;> first | rfl | cases h

theorem Action.live_of_isStill {x : Action} (h : x.isStill = true) (n : Nat) : x.live n = n := by
  cases x <;> first | rfl | cases h

theorem Action.isStill_of_takes {x : Action} (h : x.takes = true) : x.isStill = true := by
  cases x <;> first | rfl | cases h

/-- Still actions together change neither count. -/
theorem foldl_of_isStill {as : List Action} (h : ∀ x ∈ as, x.isStill = true) (n : Nat) :
    as.foldl Action.live n = n ∧ as.foldl Action.waiting n = n := by
  induction as with
  | nil => exact ⟨rfl, rfl⟩
  | cons x as ih =>
    rw [List.forall_mem_cons] at h
    rw [List.foldl_cons, List.foldl_cons, Action.live_of_isStill h.1, Action.waiting_of_isStill h.1]
    exact ih h.2

/-! ### Actions that trade operands -/

/-- Actions take `i` operands off the stack and leave `j` in their place, whatever is below. All the
    way, as many operands wait as the code so far leaves values, where an operator is counted right
    behind its instruction. -/
structure Trades (i j : Nat) (as : List Action) : Prop where
  total : ∀ n, as.foldl Action.waiting (n + i) = n + j
  along : ∀ before after, as = before ++ after → ∃ k, ∀ n,
    before.foldl Action.live (n + i) = n + k ∧
      before.foldl Action.waiting (n + i) = n + k + uncounted after

namespace Trades

variable {i j k : Nat} {as bs : List Action}

/-- Nothing is left to be counted when the actions begin. -/
theorem uncounted_eq (h : Trades i j as) : uncounted as = 0 := by
  obtain ⟨k, hk⟩ := h.along [] as rfl
  obtain ⟨hlive, hwaiting⟩ := hk 0
  simp only [List.foldl_nil] at hlive hwaiting
  omega

/-- In the end, the code has traded as many values as operands were counted. -/
theorem live_eq (h : Trades i j as) (n : Nat) : as.foldl Action.live (n + i) = n + j := by
  obtain ⟨k, hk⟩ := h.along as [] (List.append_nil _).symm
  obtain ⟨hlive, hwaiting⟩ := hk n
  rw [h.total, uncounted_nil] at hwaiting
  omega

/-- What is below the operands does not matter. -/
theorem above (h : Trades i j as) (below : Nat) : Trades (i + below) (j + below) as where
  total n := by
    have htotal := h.total (n + below)
    rw [show n + (i + below) = n + below + i by omega, htotal]
    omega
  along before after heq := by
    obtain ⟨k, hk⟩ := h.along before after heq
    refine ⟨k + below, fun n => ?_⟩
    obtain ⟨hlive, hwaiting⟩ := hk (n + below)
    rw [show n + (i + below) = n + below + i by omega, hlive, hwaiting]
    omega

theorem append (h : Trades i j as) (h' : Trades j k bs) : Trades i k (as ++ bs) where
  total n := by rw [List.foldl_append, h.total, h'.total]
  along before after heq := by
    rcases List.append_eq_append_iff.1 heq with ⟨cs, rfl, hbs⟩ | ⟨cs, has, rfl⟩
    · obtain ⟨l, hl⟩ := h'.along cs after hbs
      refine ⟨l, fun n => ?_⟩
      rw [List.foldl_append, List.foldl_append, h.live_eq, h.total]
      exact hl n
    · -- What is still to be counted stands among the first actions, or nowhere.
      have hcount : uncounted (cs ++ bs) = uncounted cs := by
        cases cs with
        | nil => exact h'.uncounted_eq
        | cons x cs => cases x <;> rfl
      rw [hcount]
      exact h.along before cs has

/-- Where nothing is written or counted, both counts stay. -/
theorem still (h : ∀ x ∈ as, x.isStill = true) : Trades 0 0 as := by
  refine ⟨fun n => (foldl_of_isStill h n).2, ?_⟩
  rintro before after rfl
  rw [List.forall_mem_append] at h
  have hafter : uncounted after = 0 := by
    cases after with
    | nil => rfl
    | cons x after =>
      have hx := h.2 x (List.mem_cons_self ..)
      cases x <;> first | rfl | cases hx
  refine ⟨0, fun n => ?_⟩
  rw [hafter]
  exact foldl_of_isStill h.1 n

theorem advance (s : TokenStream) : Trades 0 0 (advance s).actions :=
  still fun _ hx => Action.isStill_of_takes (takes_of_mem_advance hx)

theorem single {x : Action} (h : x.isStill = true) : Trades 0 0 [x] :=
  still (List.forall_mem_singleton.2 h)

/-- A number adds an operand. -/
theorem literal (t : Token) : Trades 0 1 [.literal t] where
  total _ := rfl
  along before after heq := by
    rcases List.singleton_eq_append_iff.1 heq with ⟨rfl, rfl⟩ | ⟨rfl, rfl⟩
    · exact ⟨0, fun n => ⟨rfl, rfl⟩⟩
    · exact ⟨1, fun n => ⟨rfl, rfl⟩⟩

/-- A sign trades an operand for another. -/
theorem negate : Trades 1 1 [.emit .negate] where
  total _ := rfl
  along before after heq := by
    rcases List.singleton_eq_append_iff.1 heq with ⟨rfl, rfl⟩ | ⟨rfl, rfl⟩
    · exact ⟨1, fun n => ⟨rfl, rfl⟩⟩
    · exact ⟨1, fun n => ⟨rfl, rfl⟩⟩

/-- An operator takes two operands and leaves one. Between its instruction and its count, one
    operand too many is counted. -/
theorem binary (op : BinaryOp) : Trades 2 1 [.emit op.opcode, .merge] where
  total _ := rfl
  along before after heq := by
    rcases List.cons_eq_append_iff.1 heq with ⟨rfl, rfl⟩ | ⟨bs, rfl, hbs⟩
    · exact ⟨2, fun n => ⟨rfl, rfl⟩⟩
    · refine ⟨1, fun n => ?_⟩
      have hlive : (Action.emit op.opcode).live (n + 2) = n + 1 := op.live_opcode (n + 2)
      rcases List.singleton_eq_append_iff.1 hbs with ⟨rfl, rfl⟩ | ⟨rfl, rfl⟩
      · exact ⟨hlive, rfl⟩
      · exact ⟨hlive, rfl⟩

end Trades

/-- How many operands are there when the reading of a part begins: the operators of an operand go on
    with its beginning. -/
def Part.begun : Part → Nat
  | .operand _ _ | .head _ => 0
  | .tail _ _ => 1

/-- Whatever part is read without a complaint, one operand is left. -/
theorem Reads.trades {part : Part} {s s' : TokenStream} {as : List Action}
    (h : Reads part s as s') (hq : firstReport as = none) : Trades part.begun 1 as := by
  induction h with
  | refused => cases hq
  | missing _ => simp [Action.report?] at hq
  | begun _ _ ih₁ ih₂ =>
    simp only [firstReport_append, firstReport_cons, Action.report?, Option.none_or,
      Option.or_eq_none_iff] at hq
    have hbody := (ih₁ hq.1.1).append (ih₂ hq.1.2)
    have hleave := (Trades.single (x := .leave) rfl).above 1
    simpa [Part.begun] using ((Trades.single (x := .enter) rfl).append hbody).append hleave
  | @number _ s _ =>
    have happly := Trades.single (x := .apply .number s.current) rfl
    exact (Trades.advance s).append (happly.append (.literal s.current))
  | @negate _ s _ _ _ _ ih =>
    simp only [firstReport_append, firstReport_cons, firstReport_advance, Action.report?,
      Option.none_or, Option.or_eq_none_iff] at hq
    have happly := Trades.single (x := .apply .unary s.current) rfl
    exact ((Trades.advance s).append (happly.append (ih hq.1))).append .negate
  | @closed _ s s₁ _ _ _ _ ih =>
    simp only [firstReport_append, firstReport_cons, firstReport_advance, Action.report?,
      Option.none_or, Option.or_none] at hq
    have happly := Trades.single (x := .apply .grouping s.current) rfl
    exact ((Trades.advance s).append (happly.append (ih hq))).append ((Trades.advance s₁).above 1)
  | unclosed _ _ _ _ => simp [Action.report?] at hq
  | done _ => exact (Trades.still (List.forall_mem_nil _)).above 1
  | @more _ _ op s _ _ _ _ _ _ _ _ ih₁ ih₂ =>
    simp only [firstReport_append, firstReport_cons, firstReport_advance, Action.report?,
      Option.none_or, Option.or_none, Option.or_eq_none_iff, firstReport_nil] at hq
    have hextend := (Trades.single (x := .extend s.current) rfl).append (.advance s)
    have happly := Trades.single (x := .apply .binary s.current) rfl
    -- The right operand is read above the left one, and the operator takes both.
    have hright := (hextend.append (happly.append (ih₁ hq.1))).above 1
    exact (hright.append (.binary op)).append (ih₂ hq.2)

/-! ### What is written -/

namespace Assembly

variable {a : Assembly} {as : List Action}

/-- An action about which nothing is said changes how many operands wait as it should. -/
theorem pending_of_remarks_eq_nil {x : Action} (h : a.remarks x = []) :
    (a.perform x).pending = x.waiting a.pending := by
  cases x with
  | scan t =>
    rw [perform]
    split <;> rfl
  | literal t =>
    cases hv : Literal.read? t.lexeme with
    | none => simp [remarks, hv] at h
    | some value =>
      simp only [perform, hv]
      exact constant_pending a value t.position
  | _ => rfl

/-- Where nothing is found wrong, the operands that wait are those that are counted. -/
theorem Quiet.pending_eq (h : a.Quiet as) :
    (a.performAll as).pending = as.foldl Action.waiting a.pending := by
  induction as generalizing a with
  | nil => rfl
  | cons x as ih =>
    rw [quiet_cons] at h
    rw [performAll_cons, ih h.2, pending_of_remarks_eq_nil h.1, List.foldl_cons]

/-- An action about which nothing is said writes instructions that leave as many values as it
    should. -/
theorem exists_grows_live_perform {x : Action} {ts : List Token} (hx : x.InnerTo ts)
    (h : a.remarks x = []) :
    ∃ is vs, Chunk.Grows a.chunk (a.perform x).chunk is vs ∧
      ∀ n, is.foldl Instruction.live n = x.live n := by
  cases x with
  | scan t =>
    rw [perform]
    split <;> exact ⟨[], [], .refl _, fun _ => rfl⟩
  | literal t =>
    cases hv : Literal.read? t.lexeme with
    | none => simp [remarks, hv] at h
    | some value =>
      simp only [perform, hv]
      rw [constant_chunk]
      obtain ⟨y, hy⟩ := Chunk.Grows.constant a.chunk value
      exact ⟨_, _, hy, fun _ => rfl⟩
  | emit opcode => exact ⟨_, _, .emit a.chunk hx.1, fun _ => rfl⟩
  | _ => exact ⟨[], [], .refl _, fun _ => rfl⟩

/-- What is written inside an expression, where nothing is found wrong, leaves as many values as are
    counted. -/
theorem Quiet.exists_grows_live {ts : List Token} (hin : ∀ x ∈ as, x.InnerTo ts)
    (h : a.Quiet as) :
    ∃ is vs, Chunk.Grows a.chunk (a.performAll as).chunk is vs ∧
      ∀ n, is.foldl Instruction.live n = as.foldl Action.live n := by
  induction as generalizing a with
  | nil => exact ⟨[], [], .refl _, fun _ => rfl⟩
  | cons x as ih =>
    rw [List.forall_mem_cons] at hin
    rw [quiet_cons] at h
    obtain ⟨is, vs, hg, hlive⟩ := exists_grows_live_perform hin.1 h.1
    obtain ⟨js, ws, hg', hlive'⟩ := ih hin.2 h.2
    refine ⟨is ++ js, vs ++ ws, hg.trans hg', fun n => ?_⟩
    rw [List.foldl_append, hlive, hlive', List.foldl_cons]

end Assembly

/-! ### What a machine makes of it -/

/-- A chunk's code from one address to another adds some values to the stack: wherever a machine
    comes to the first address with room for `need` values, it goes on to the other one, and has
    `gain` values more there. -/
def Chunk.Gains (c : Chunk) (first last need gain : Nat) : Prop :=
  ∀ m : Machine, m.address = first → m.stack.length + need ≤ stackMax →
    ∃ ms m', Machine.Steps c m ms m' ∧ m'.address = last ∧
      m'.stack.length = m.stack.length + gain

namespace Machine

variable {c c' : Chunk} {m m' : Machine} {ms : List Machine}

/-- What is added behind the code changes no step that goes on. -/
theorem Steps.of_begins (hc : c.Begins c') (h : Steps c m ms m') : Steps c' m ms m' := by
  induction h with
  | refl => exact .refl _
  | @cons m m₁ _ _ hstep _ ih =>
    rcases step_of_begins hc m with hs | ⟨cause, q, -, hs⟩
    · exact .cons (hs.trans hstep) ih
    · rw [hstep] at hs
      cases hs

end Machine

open Machine in
/-- A chunk has grown twice. On its way through all that was added, the machine comes to the place
    where the first part ends, and has as many values there as are counted. -/
theorem Chunk.Grows.exists_between {c b c' : Chunk} {is js : List Instruction} {vs ws : List Float}
    (hg : Grows c b is vs) (hg' : Grows b c' js ws) {m m' : Machine} {ms : List Machine}
    (h : Steps c' m ms m') (hm : m.address = c.length) (hend : m'.address = c'.length) :
    ∃ ms' q, Steps c' m ms' q ∧ q.address = b.length ∧
      q.stack.length = is.foldl Instruction.live m.stack.length := by
  have hlisting := h.listingFrom_eq
  rw [hm, (hg.trans hg').listingFrom_eq, Instruction.place_append, ← hg.length_eq,
    listingFrom_of_le (Nat.le_of_eq hend.symm), List.append_nil] at hlisting
  obtain ⟨ms₁, ms₂, rfl, h₁, h₂⟩ := List.map_eq_append_iff.1 hlisting.symm
  have hlength : ∀ {q : Machine}, Steps c' m ms₁ q →
      q.stack.length = is.foldl Instruction.live m.stack.length := by
    intro q hq
    rw [hq.length_eq, h₁, Instruction.map_snd_place]
  cases ms₂ with
  | nil =>
    -- There is no second part, so the machine comes to the end of the first.
    have hjs : js = [] := by
      cases js with
      | nil => rfl
      | cons j js => cases h₂
    rw [List.append_nil] at h
    refine ⟨ms₁, m', h, ?_, hlength h⟩
    rw [hend, hg'.length_eq, hjs]
    rfl
  | cons q ms₂ =>
    obtain ⟨hq, -⟩ := h.of_append
    refine ⟨ms₁, q, hq, ?_, hlength hq⟩
    cases js with
    | nil => cases h₂
    | cons j js =>
      injection h₂ with hfront _
      exact congrArg Prod.fst hfront

namespace Assembly

variable {a a' : Assembly} {x : Expr Float}

/-- A tree whose literals find room is run from any machine that has room for what it needs. -/
theorem Adds.exists_steps (h : a.Adds a' x)
    (hfit : a.chunk.constants.size + x.literals.length ≤ constantMax) {m : Machine}
    (hm : m.address = a.chunk.length) (hroom : m.stack.length + x.need ≤ stackMax) :
    ∃ ms m', Machine.Steps a'.chunk m ms m' ∧ m'.address = a'.chunk.length := by
  have hconstants : a'.chunk.constants.toList
      = a.chunk.constants.toList ++ (x.literals ++ []) := by
    rw [List.append_nil, h.constants]
  have hmap := x.map_indexed hconstants (by rwa [Array.length_toList])
  rw [Array.length_toList] at hmap
  have hcode : a'.chunk.code.toList
      = a.chunk.code.toList ++ ((x.indexed a.chunk.constants.size).code ++ []) := by
    rw [List.append_nil, h.code]
  have hholds := Chunk.holds_of_code_eq hcode
  rw [Array.length_toList] at hholds
  have hlength : a'.chunk.length
      = a.chunk.length + (x.indexed a.chunk.constants.size).code.length := by
    have hlen := congrArg List.length h.code
    rwa [List.length_append, Array.length_toList, Array.length_toList] at hlen
  obtain ⟨ms, m', hcomputes⟩ :=
    Expr.exists_computes _ x hmap m (hm ▸ hholds) (by rwa [Expr.need_indexed])
  refine ⟨ms, m', hcomputes.steps, ?_⟩
  rw [hcomputes.address, hm, hlength]

/-- While the code of a tree is written, as many operands wait as a machine that runs the code so
    far has values more than at its beginning. -/
theorem Adds.exists_gains {as before after : List Action} {ts : List Token}
    (h : a.Adds (a.performAll as) x)
    (hfit : a.chunk.constants.size + x.literals.length ≤ constantMax)
    (hin : ∀ y ∈ as, y.InnerTo ts) (hq : a.Quiet as) (htrades : Trades 0 1 as)
    (heq : as = before ++ after) :
    ∃ gain, (∀ c, (a.performAll as).chunk.Begins c →
        c.Gains a.chunk.length (a.performAll before).chunk.length x.need gain) ∧
      (a.performAll before).pending = a.pending + gain + uncounted after := by
  obtain ⟨gain, hgain⟩ := htrades.along before after heq
  rw [heq, List.forall_mem_append] at hin
  rw [heq, quiet_append] at hq
  obtain ⟨is, vs, hgrows, hlive⟩ := hq.1.exists_grows_live hin.1
  obtain ⟨js, ws, hgrows', -⟩ := (a.performAll before).exists_grows hin.2
  rw [← performAll_append, ← heq] at hgrows'
  refine ⟨gain, ?_, ?_⟩
  · intro c hc m hm hroom
    obtain ⟨ms, m', hsteps, hend⟩ := h.exists_steps hfit hm hroom
    obtain ⟨ms', q, hq, haddress, hlength⟩ := hgrows.exists_between hgrows' hsteps hm hend
    refine ⟨ms', q, hq.of_begins hc, haddress, ?_⟩
    rw [hlength, hlive]
    exact (hgain m.stack.length).1
  · rw [hq.1.pending_eq]
    exact (hgain a.pending).2

end Assembly

end Abacus
