import Mathlib.Data.List.Chain
import Abacus.Proofs.Acceptance
import Abacus.Proofs.WellFormed

namespace Abacus

/-!
# A listing loses nothing

A listing cuts the code of a chunk, whatever its bytes are, into instructions that lie end to end.

* `Instruction.Stands.next_eq`, `Instruction.Stands.holds` — what stands at an address is as long as
  its encoding, and its bytes are there.
* `Chunk.Listed c items` — the items are what is decoded in `c`, end to end and in full.
* `Chunk.flatMap_encode_listingFrom` — the encodings of a listing are the code again.
* `Instruction.pushed?` — the index and the value that an instruction pushes.
* `Chunk.filterMap_pushed?_listing` — for compiled code, these are its literals in order.
* `listing_partition` — both for all chunks and all source texts.
-/

/-! ### Bytes at an address -/

/-- Bytes that stand at an address are the next ones from there on. -/
theorem Chunk.Holds.drop_eq {c : Chunk} {address : Nat} {bytes : List UInt8}
    (h : c.Holds address bytes) :
    c.code.toList.drop address = bytes ++ c.code.toList.drop (address + bytes.length) := by
  induction bytes generalizing address with
  | nil => rfl
  | cons b bytes ih =>
    obtain ⟨hb, hrest⟩ := h
    rw [byte?, ← Array.getElem?_toList] at hb
    obtain ⟨hlt, hget⟩ := List.getElem?_eq_some_iff.1 hb
    rw [List.drop_eq_getElem_cons hlt, hget, ih hrest, List.cons_append, List.length_cons,
      Nat.add_assoc, Nat.add_comm 1]

namespace Instruction

variable {c : Chunk} {address next : Nat} {i : Instruction}

/-- The next instruction begins where the bytes of this one end. -/
theorem Stands.next_eq (h : Stands c address i next) : next = address + i.encode.length := by
  cases h <;> rfl

/-- The bytes of an instruction stand at its address. -/
theorem Stands.holds (h : Stands c address i next) : c.Holds address i.encode := by
  cases h with
  | pastEnd _ => trivial
  | unknown hb _ => exact ⟨hb, trivial⟩
  | truncated hb _ => exact ⟨hb, trivial⟩
  | constant hcode => exact hcode
  | simple hb _ => exact ⟨hb, trivial⟩

/-- The operand of an instruction is missing only at the end of the code. -/
theorem Stands.length_le {opcode : Opcode} (h : Stands c address (.truncated opcode) next) :
    c.length ≤ address + 1 := by
  cases h with
  | truncated _ hend => exact Chunk.byte?_eq_none_iff.1 hend

end Instruction

/-! ### Listings -/

open Instruction

/-- Some items are what is decoded in a chunk, each at its address. They lie end to end from the
    beginning on, none of them without a byte, and their encodings are the whole code. Only the
    last one can lack its operand, for which there is no byte left. -/
structure Chunk.Listed (c : Chunk) (items : List (Nat × Instruction)) : Prop where
  decoded : ∀ p ∈ items, (decode c p.1).1 = p.2 ∧ p.2 ≠ .pastEnd
  starts : c.isEmpty = false → items.head?.map Prod.fst = some 0
  increasing : (items.map Prod.fst).Pairwise (· < ·)
  endToEnd : items.IsChain fun p q => q.1 = p.1 + p.2.encode.length
  truncated : ∀ address opcode, (address, .truncated opcode) ∈ items →
    items.getLast? = some (address, .truncated opcode) ∧ address = c.length - 1
  lossless : items.flatMap (fun p => p.2.encode) = c.code.toList
  length_le : items.length ≤ c.length

namespace Chunk

variable {c : Chunk} {address : Nat} {p : Nat × Instruction}

/-- What is listed stands at its address, within the code. -/
theorem stands_of_mem_listingFrom (h : p ∈ c.listingFrom address) :
    ∃ next, Stands c p.1 p.2 next ∧ address ≤ p.1 ∧ p.1 < c.length := by
  fun_induction listingFrom c address with
  | case1 address hlt hnext ih =>
    rcases List.mem_cons.1 h with rfl | h
    · obtain ⟨i, next, hi⟩ := exists_stands c address
      rw [hi.decode_eq]
      exact ⟨next, hi, Nat.le_refl _, hlt⟩
    · obtain ⟨next, hi, hle, hend⟩ := ih h
      exact ⟨next, hi, by omega, hend⟩
  | case2 => cases h

/-- A listing begins with the instruction at its address. -/
theorem head?_listingFrom (h : address < c.length) :
    (c.listingFrom address).head? = some (address, (decode c address).1) := by
  rw [listingFrom_of_lt h, List.head?_cons]

/-- Each item of a listing lies behind those before it. -/
theorem pairwise_listingFrom (c : Chunk) (address : Nat) :
    ((c.listingFrom address).map Prod.fst).Pairwise (· < ·) := by
  fun_induction listingFrom c address with
  | case1 address hlt hnext ih =>
    rw [List.map_cons, List.pairwise_cons]
    refine ⟨?_, ih⟩
    intro a ha
    obtain ⟨p, hp, rfl⟩ := List.mem_map.1 ha
    obtain ⟨-, -, hle, -⟩ := stands_of_mem_listingFrom hp
    show address < p.1
    omega
  | case2 => exact .nil

/-- Each instruction of a listing stands behind the bytes of the one before. -/
theorem isChain_listingFrom (c : Chunk) (address : Nat) :
    (c.listingFrom address).IsChain fun p q => q.1 = p.1 + p.2.encode.length := by
  fun_induction listingFrom c address with
  | case1 address hlt hnext ih =>
    rw [List.isChain_cons]
    refine ⟨?_, ih⟩
    intro q hq
    obtain ⟨i, next, hi⟩ := exists_stands c address
    rw [hi.decode_eq] at hq ⊢
    -- If an item follows, it is at the address where this one ends.
    by_cases hend : next < c.length
    · rw [head?_listingFrom hend, Option.mem_some_iff] at hq
      rw [← hq]
      exact hi.next_eq
    · rw [listingFrom_of_le (Nat.not_lt.1 hend)] at hq
      cases hq
  | case2 => exact .nil

/-- The encodings of what is listed from an address on are the code from there on. -/
theorem flatMap_encode_listingFrom (c : Chunk) (address : Nat) :
    (c.listingFrom address).flatMap (fun p => p.2.encode) = c.code.toList.drop address := by
  fun_induction listingFrom c address with
  | case1 address hlt hnext ih =>
    obtain ⟨i, next, hi⟩ := exists_stands c address
    rw [hi.decode_eq] at ih ⊢
    rw [List.flatMap_cons, ih, hi.holds.drop_eq, hi.next_eq]
  | case2 address hlt => exact (List.drop_eq_nil_of_le (Nat.not_lt.1 hlt)).symm

/-- A listing has no more instructions than there are bytes. -/
theorem length_listingFrom_le (c : Chunk) (address : Nat) :
    (c.listingFrom address).length ≤ c.length - address := by
  fun_induction listingFrom c address with
  | case1 address hlt hnext ih =>
    rw [List.length_cons]
    omega
  | case2 => exact Nat.zero_le _

/-- The listing of any chunk is what is decoded in it, end to end and in full. -/
theorem listed_listing (c : Chunk) : c.Listed c.listing where
  decoded := by
    intro p hp
    obtain ⟨next, hi, -, hlt⟩ := stands_of_mem_listingFrom hp
    refine ⟨by rw [hi.decode_eq], ?_⟩
    intro hpast
    rw [hpast] at hi
    cases hi with
    | pastEnd hb => exact absurd (byte?_eq_none_iff.1 hb) (Nat.not_le.2 hlt)
  starts := by
    intro hne
    have hpos : 0 < c.length := by
      refine Nat.pos_of_ne_zero fun hzero => ?_
      rw [isEmpty, Array.isEmpty_eq_false_iff] at hne
      exact hne (Array.size_eq_zero_iff.1 hzero)
    rw [listing, head?_listingFrom hpos, Option.map_some]
  increasing := c.pairwise_listingFrom 0
  endToEnd := c.isChain_listingFrom 0
  truncated := by
    intro address opcode hmem
    obtain ⟨next, hi, -, hlt⟩ := stands_of_mem_listingFrom hmem
    have hend := hi.length_le
    obtain ⟨before, after, hsplit⟩ := List.append_of_mem hmem
    -- An item behind this one would lie further on, and still within the code.
    have hafter : after = [] := by
      refine List.eq_nil_iff_forall_not_mem.2 fun q hq => ?_
      have hpairs := c.pairwise_listingFrom 0
      rw [show c.listingFrom 0 = _ from hsplit, List.map_append, List.map_cons,
        List.pairwise_append, List.pairwise_cons] at hpairs
      have hfurther : address < q.1 := hpairs.2.1.1 q.1 (List.mem_map_of_mem hq)
      have hq' : q ∈ c.listingFrom 0 := by
        rw [show c.listingFrom 0 = _ from hsplit]
        simp [hq]
      obtain ⟨-, -, -, hqlt⟩ := stands_of_mem_listingFrom hq'
      omega
    rw [hafter] at hsplit
    refine ⟨?_, by omega⟩
    rw [hsplit, List.getLast?_concat]
  lossless := c.flatMap_encode_listingFrom 0
  length_le := c.length_listingFrom_le 0

end Chunk

/-! ### Literals -/

/-- The index of the constant that an instruction pushes, and the value that is listed for it. -/
def Instruction.pushed? : Instruction → Option (Nat × Option Float)
  | constant index value => some (index.toNat, value)
  | simple _ | truncated _ | unknown _ | pastEnd => none

/-- The value that is listed for an index is the constant at this index. -/
theorem Instruction.Stands.pushed?_eq {c : Chunk} {address next : Nat} {i : Instruction}
    (h : Stands c address i next) :
    i.pushed? = i.operand?.map fun index => (index.toNat, c.constant? index.toNat) := by
  cases h <;> rfl

namespace Chunk

/-- What a listing pushes is told by the operands and the constants. -/
theorem filterMap_pushed?_eq (c : Chunk) :
    c.listing.filterMap (fun p => p.2.pushed?)
      = ((c.listing.filterMap (fun p => p.2.operand?)).map UInt8.toNat).map
          fun index => (index, c.constant? index) := by
  rw [List.map_map, List.map_filterMap]
  refine List.filterMap_congr fun p hp => ?_
  obtain ⟨next, hi, -⟩ := stands_of_mem_listingFrom hp
  exact hi.pushed?_eq

/-- The instructions of a new chunk that push constants push them in order, and each once. -/
theorem filterMap_pushed?_listing {c : Chunk} (h : Chunk.empty.ExtendsWell c)
    (hroom : c.constants.size ≤ constantMax) :
    c.listing.filterMap (fun p => p.2.pushed?)
      = c.constants.toList.mapIdx fun index value => (index, some value) := by
  have hoperands : (c.listing.filterMap (fun p => p.2.operand?)).map UInt8.toNat
      = List.range c.constants.size := by
    have hext := h.operands
    refine hext.trans ?_
    -- All indices fit into an operand byte, so none is replaced by the first one.
    refine (List.map_congr_left fun j hj => ?_).trans (List.map_id _)
    have hlt : 0 + j < constantMax := by
      have := List.mem_range.1 hj
      have hzero : Chunk.empty.constants.size = 0 := rfl
      omega
    show (if 0 + j < constantMax then 0 + j else 0) = j
    rw [if_pos hlt, Nat.zero_add]
  rw [filterMap_pushed?_eq, hoperands]
  refine List.ext_getElem? fun j => ?_
  rw [List.getElem?_map, List.getElem?_mapIdx, Array.getElem?_toList]
  by_cases hj : j < c.constants.size
  · simp [hj, constant?]
  · simp [hj]

end Chunk

/-- **A listing is a lossless partition of the code.** Whatever the bytes of a chunk are, its items
    lie end to end and their encodings are the code again. In what a source text compiles to, the
    items that push constants have successive indices, and their values are the numbers of the text
    in order. -/
theorem listing_partition :
    (∀ c : Chunk, c.Listed c.listing) ∧
    ∀ (source : String) (c : Chunk), compile source = .ok c →
      ∃ values : List Float,
        values.map some
          = (numbersOf (scan source).body).map (fun t => Literal.read? t.lexeme) ∧
        c.listing.filterMap (fun p => p.2.pushed?)
          = values.mapIdx fun index value => (index, some value) := by
  refine ⟨Chunk.listed_listing, ?_⟩
  intro source c hcompile
  obtain ⟨-, e, x, d, -, hx, hfit, hcode⟩ := exists_isCodeOf_of_compile hcompile
  obtain ⟨y, hy, hliterals⟩ := d.exists_expr? (readable_scan source)
  obtain rfl := Option.some.inj (hx.symm.trans hy)
  obtain ⟨-, rfl⟩ := compile_eq_ok_iff.1 hcompile
  obtain ⟨is, vs, hgrows, hret⟩ := exists_grows_compileInto .empty source
  refine ⟨x.literals, hliterals, ?_⟩
  rw [← hcode.constants]
  refine Chunk.filterMap_pushed?_listing (hgrows.extendsWell hret) ?_
  rw [hcode.size_constants]
  exact hfit

/-- In what `6 / -(1.5 + 2)` compiles to, the three numbers are listed in order. -/
theorem listing_partition_quotient :
    ∃ (c : Chunk) (values : List Float), compile "6 / -(1.5 + 2)" = .ok c ∧ c.Listed c.listing ∧
      values.map some = [Literal.read? "6", Literal.read? "1.5", Literal.read? "2"] ∧
      c.listing.filterMap (fun p => p.2.pushed?)
        = values.mapIdx fun index value => (index, some value) := by
  have hquiet : (compileInto .empty "6 / -(1.5 + 2)").diagnostics = [] := by decide +kernel
  have hcompile : compile "6 / -(1.5 + 2)" = .ok (compileInto .empty "6 / -(1.5 + 2)").chunk :=
    compile_eq_ok_iff.2 ⟨hquiet, rfl⟩
  have hnumbers : (numbersOf (scan "6 / -(1.5 + 2)").body).map Token.lexeme
      = ["6", "1.5", "2"] := by decide +kernel
  obtain ⟨values, hvalues, hlisting⟩ := listing_partition.2 _ _ hcompile
  refine ⟨_, values, hcompile, listing_partition.1 _, ?_, hlisting⟩
  have hread := congrArg (List.map Literal.read?) hnumbers
  rw [List.map_map] at hread
  exact hvalues.trans hread

end Abacus
