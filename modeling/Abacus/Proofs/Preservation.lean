import Abacus.Proofs.Acceptance
import Abacus.Proofs.Execution

namespace Abacus

/-!
# Compiled code computes the value of its text

* `Expr.map_indexed` — the operand bytes of a tree's code refer to the literals of the tree.
* `Machine.Run.Completes r c value` — the run `r` goes once through all instructions of `c` and
  returns `value`, which is then alone on the stack.
* `Chunk.IsCodeOf.completes` — so does the run of the code of a tree, with the tree's value.
* `compile_preservation` — and thus what a text compiles to has the value of its tree.
-/

/-- If the literals of a tree stand among the constants from some index on, the operand bytes
    counted from there refer to them. -/
theorem Expr.map_indexed {c : Chunk} (x : Expr Float) {before after : List Float}
    (h : c.constants.toList = before ++ (x.literals ++ after))
    (hfit : before.length + x.literals.length ≤ constantMax) :
    (x.indexed before.length).map (fun i => c.constant? i.toNat) = x.map some := by
  induction x generalizing before after with
  | number value =>
    have hconstant : c.constant? before.length = some value := by
      rw [Chunk.constant?, ← Array.getElem?_toList, h, List.getElem?_append_right (Nat.le_refl _),
        Nat.sub_self]
      rfl
    show Expr.number (c.constant? (operandByte before.length).toNat) = _
    rw [toNat_operandByte, if_pos (Nat.lt_of_succ_le hfit), hconstant]
    rfl
  | negate x ih => exact congrArg Expr.negate (ih h hfit)
  | binary op l r ihl ihr =>
    rw [literals, List.length_append] at hfit
    have hl := @ihl before (r.literals ++ after) (by rw [h, literals, List.append_assoc]) (by omega)
    have hr := @ihr (before ++ l.literals) after
      (by rw [h, literals, List.append_assoc, List.append_assoc])
      (by rw [List.length_append]; omega)
    rw [List.length_append] at hr
    show Expr.binary op _ _ = _
    rw [hl, hr]
    rfl

/-- A run that carries every instruction of a chunk out once, in order, and returns the only value
    that is left then. On the way there are never more values than constants. -/
structure Machine.Run.Completes (r : Machine.Run) (c : Chunk) (value : Float) : Prop where
  result : r.result = .ok value
  addresses : r.visited.map (·.address) = c.listing.map (·.1)
  bound : ∀ m ∈ r.visited, m.stack.length ≤ c.constants.size
  last : ∃ before last, r.visited = before ++ [last] ∧
    Instruction.decode c last.address = (.simple .ret, c.length) ∧ last.stack.items = [value]

namespace Chunk.IsCodeOf

variable {c : Chunk} {x : Expr Float}

/-- The code of a tree ends with one more byte, for the return. -/
theorem length_eq (h : c.IsCodeOf x) : c.length = (x.indexed 0).code.length + 1 := by
  have hlen := congrArg List.length h.code
  rwa [Array.length_toList, List.length_append] at hlen

/-- The code of a tree stands at the beginning, and the return behind it. -/
theorem holds (h : c.IsCodeOf x) :
    c.Holds 0 (x.indexed 0).code ∧ c.byte? (x.indexed 0).code.length = some Opcode.ret.byte :=
  Expr.holds_of_code_eq h.code

/-- The indices in the code of a tree lead to its literals. -/
theorem map_indexed (h : c.IsCodeOf x) (hfit : x.literals.length ≤ constantMax) :
    (x.indexed 0).map (fun i => c.constant? i.toNat) = x.map some := by
  have hconstants : c.constants.toList = [] ++ (x.literals ++ []) := by
    rw [List.append_nil]
    exact h.constants
  exact x.map_indexed hconstants (by rw [List.length_nil, Nat.zero_add]; exact hfit)

/-- The code of a tree computes its value. -/
theorem exists_computes (h : c.IsCodeOf x) (hfit : x.literals.length ≤ constantMax) :
    ∃ ms m, Machine.Computes c .initial (x.indexed 0).code.length x.value (0 + x.need) ms m := by
  have hmap := h.map_indexed hfit
  have hroom : 0 + (x.indexed 0).need ≤ stackMax := by
    have hneed := x.need_le_length
    have hmax : constantMax = stackMax := rfl
    rw [Expr.need_indexed]
    omega
  have hcomputes := Expr.exists_computes (x.indexed 0) x hmap .initial h.holds.1 hroom
  rwa [Expr.need_indexed] at hcomputes

/-- Running the code of a tree carries every instruction out and returns the value of the tree. -/
theorem completes (h : c.IsCodeOf x) (hfit : x.literals.length ≤ constantMax) :
    (Machine.initial.run c).Completes c x.value := by
  obtain ⟨ms, m, hm⟩ := h.exists_computes hfit
  -- Behind the code of the tree, the return is all that is left.
  have haddress : m.address = (x.indexed 0).code.length := hm.address.trans (Nat.zero_add _)
  have hret : c.byte? m.address = some Opcode.ret.byte := by
    rw [haddress]
    exact h.holds.2
  have hdecode := Instruction.decode_simple hret (by decide)
  obtain ⟨m', hstep, -⟩ := Machine.step_ret hdecode hm.items
  have hend : m.address + 1 = c.length := by rw [haddress, h.length_eq]
  have hrun : Machine.initial.run c = ⟨ms ++ [m], .ok x.value, m'⟩ := by
    show Machine.runFrom c .initial = _
    rw [hm.steps.runFrom_eq, Machine.runFrom_of_some hstep]
  have hneed := x.need_le_length
  have hpos := x.need_pos
  have hsize := h.size_constants
  rw [hrun]
  refine ⟨rfl, ?_, ?_, ms, m, rfl, hend ▸ hdecode, hm.items⟩
  · have hlisting : c.listing.map (·.1)
        = ms.map (·.address) ++ (c.listingFrom m.address).map (·.1) := hm.steps.listing_eq
    have hlt : m.address < c.length := by omega
    rw [hlisting, Chunk.listingFrom_of_lt hlt, hdecode, Chunk.listingFrom_of_le (by omega),
      List.map_append]
    rfl
  · intro q hq
    rcases List.mem_append.1 hq with hq | hq
    · have hbound := hm.bound q hq
      omega
    · obtain rfl := List.mem_singleton.1 hq
      have hlen : q.stack.length = 1 := congrArg List.length hm.items
      omega

end Chunk.IsCodeOf

/-- **Compiled code has the value of its text.** Whatever compiles, the grammar gives it one tree,
    and running the code returns the value of this tree: every instruction is carried out once,
    nothing fails, the stack has room, and in the end the value is alone on it. -/
theorem compile_preservation {source : String} {chunk : Chunk} (h : compile source = .ok chunk) :
    ∃ e x, Derives .expr (scan source).body e ∧
      (∀ e', Derives .expr (scan source).body e' → e' = e) ∧ e.expr? = some x ∧
        run chunk = .ok x.value ∧ (Machine.initial.run chunk).Completes chunk x.value ∧
          chunk.constants.size ≤ stackMax := by
  obtain ⟨-, e, x, d, -, hx, hfit, hcode⟩ := exists_isCodeOf_of_compile h
  have hrun := hcode.completes hfit
  refine ⟨e, x, d, fun e' d' => d'.unique d, hx, hrun.result, hrun, ?_⟩
  rw [hcode.size_constants]
  exact hfit

/-- The product of a sum and a negative number. -/
theorem compile_preservation_product :
    compile "(1 + 2) * -3" = .ok (compileInto .empty "(1 + 2) * -3").chunk ∧
      ∃ e x, Derives .expr (scan "(1 + 2) * -3").body e ∧ e.expr? = some x ∧
        run (compileInto .empty "(1 + 2) * -3").chunk = .ok x.value := by
  have h : compile "(1 + 2) * -3" = .ok (compileInto .empty "(1 + 2) * -3").chunk := by
    have hnil : (compileInto .empty "(1 + 2) * -3").diagnostics.isEmpty = true := by
      decide +kernel
    exact if_pos hnil
  obtain ⟨e, x, d, -, hx, hrun, -⟩ := compile_preservation h
  exact ⟨h, e, x, d, hx, hrun⟩

end Abacus
