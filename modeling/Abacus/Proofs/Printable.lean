import Abacus.Proofs.Munching
import Abacus.Proofs.RunLog

namespace Abacus

/-!
# Printable texts

Numbers, addresses and instructions are written with the characters that can be seen in a line, so
that no line ends inside of them and no styling begins there.

* `isInk` — a character that takes up one place in a line.
* `IsPrintable s` — a text is made of such characters; `Layout.isPrintable_write`,
  `Instruction.isPrintable_text` and the like say so of what is printed.
* `IsPrintable.notMem` — it holds none of the others.
-/

/-- Characters that take up one place in a line: those from the space to the tilde. -/
def isInk (c : Char) : Bool := ' ' ≤ c && c ≤ '~'

/-- A text is made of characters that take up one place in a line. -/
def IsPrintable (s : String) : Prop := s.toList.all isInk = true

instance (s : String) : Decidable (IsPrintable s) := inferInstanceAs (Decidable (_ = _))

/-- A digit can be printed. -/
theorem isInk_of_isDigit {c : Char} (h : c.isDigit = true) : isInk c = true := by
  obtain ⟨hlow, hhigh⟩ := isDigit_iff.1 h
  have hspace : ' ' ≤ c := Char.le_trans (by decide) hlow
  have htilde : c ≤ '~' := Char.le_trans hhigh (by decide)
  simp [isInk, hspace, htilde]

theorem all_isInk_of_isDigit {cs : List Char} (h : ∀ c ∈ cs, c.isDigit = true) :
    cs.all isInk = true :=
  List.all_eq_true.2 fun c hc => isInk_of_isDigit (h c hc)

namespace IsPrintable

/-- Texts that can be printed can be printed together. -/
theorem append {s t : String} (hs : IsPrintable s) (ht : IsPrintable t) : IsPrintable (s ++ t) := by
  unfold IsPrintable at *
  rw [String.toList_append, List.all_append, hs, ht]
  rfl

/-- A printable text holds no other character. -/
theorem notMem {s : String} (h : IsPrintable s) {c : Char} (hc : isInk c = false) :
    c ∉ s.toList := by
  intro hmem
  have hink := List.all_eq_true.1 h c hmem
  rw [hc] at hink
  cases hink

end IsPrintable

theorem isPrintable_toString (n : Nat) : IsPrintable (toString n) :=
  all_isInk_of_isDigit fun _ => isDigit_of_mem_toString

theorem isPrintable_addressText (address : Nat) : IsPrintable (addressText address) :=
  all_isInk_of_isDigit fun _ => isDigit_of_mem_addressText

theorem isPrintable_spaces (n : Nat) : IsPrintable (Text.fill ' ' n) := by
  have hspace : isInk ' ' = true := rfl
  rw [IsPrintable, Text.fill, String.toList_ofList, List.all_replicate, hspace, ite_self]

/-! ### Numbers -/

namespace Layout

/-- A number that is written out in full is made of digits and a point. -/
theorem all_isInk_writePositional {digits : List Char} (h : ∀ c ∈ digits, c.isDigit = true)
    (point : Int) : (plain.writePositional digits point).all isInk = true := by
  have hpoint : isInk '.' = true := rfl
  have hzero : isInk '0' = true := rfl
  have hall := all_isInk_of_isDigit h
  have htake : ∀ n, (digits.take n).all isInk = true :=
    fun n => all_isInk_of_isDigit fun c hc => h c (List.mem_of_mem_take hc)
  have hdrop : ∀ n, (digits.drop n).all isInk = true :=
    fun n => all_isInk_of_isDigit fun c hc => h c (List.mem_of_mem_drop hc)
  unfold writePositional
  split
  · simp only [List.all_cons, List.all_append, List.all_replicate, hpoint, hzero, hall,
      ite_self, Bool.and_true]
  · split
    · simp only [List.all_cons, List.all_append, hpoint, htake, hdrop, Bool.and_true]
    · simp only [List.all_append, List.all_replicate, hzero, hall, plain, List.all_nil,
        ite_self, Bool.and_true]

/-- A decimal fraction is written without spaces. -/
theorem all_isInk_writeDecimal (d : Decimal) : (plain.writeDecimal d).all isInk = true :=
  all_isInk_writePositional
    (fun _ hc => Nat.isDigit_of_mem_toDigits (by decide) (by decide) hc) d.point

/-- The text of a number is printable. -/
theorem isPrintable_write (x : Float) : IsPrintable (plain.write x) := by
  unfold write
  dsimp only
  split
  · decide
  · rw [IsPrintable, String.toList_ofList, List.all_append, Bool.and_eq_true]
    constructor
    · split <;> decide
    · unfold writeMagnitude
      dsimp only
      split
      · decide
      · split
        · decide
        · split
          · exact all_isInk_writeDecimal _
          · exact all_isInk_writeDecimal _

end Layout

/-! ### Instructions -/

/-- The names of opcodes can be printed. -/
theorem Opcode.isPrintable_name (opcode : Opcode) : IsPrintable opcode.name := by
  cases opcode <;> decide

/-- The text of an instruction is printable. -/
theorem Instruction.isPrintable_text (i : Instruction) : IsPrintable i.text := by
  have hname : ∀ opcode : Opcode, IsPrintable (Text.alignLeft nameWidth opcode.name) :=
    fun opcode => opcode.isPrintable_name.append (isPrintable_spaces _)
  cases i with
  | constant index value =>
    have hindex : IsPrintable (Text.alignRight ' ' 4 (toString index.toNat)) :=
      (isPrintable_spaces _).append (isPrintable_toString _)
    have hspace : IsPrintable " " := by decide
    refine ((((hname .constant).append hspace).append hindex).append hspace).append ?_
    cases value with
    | none => decide
    | some x => exact .append (.append (by decide) (Layout.isPrintable_write x)) (by decide)
  | simple opcode => exact opcode.isPrintable_name
  | truncated opcode => exact (hname opcode).append (by decide)
  | unknown byte => exact .append (by decide) (isPrintable_toString _)
  | pastEnd => decide

/-- So is a line of a listing. -/
theorem isPrintable_listingLine (address : Nat) (i : Instruction) :
    IsPrintable (listingLine address i) :=
  ((isPrintable_addressText address).append (by decide)).append i.isPrintable_text

end Abacus
