import Abacus.Event
import Abacus.Proofs.Munching
import Abacus.Proofs.Preservation

namespace Abacus

/-!
# The log of a run follows the listing

Before each instruction the machine logs a line about it. The log reads the code as the listing
does, and so a run goes down the listing line by line and stops somewhere in it.

* `Chunk.lines` — the lines of a listing; `Chunk.disassemble_eq_lines` — they make up its text.
* `readEntry` — the address and the text of an instruction, read off a line; `readEntry_lineOf` —
  what is read is what was written.
* `Machine.Run.messages` — the lines that a run logs.
* `Machine.upcoming_runFrom` — the instructions that are logged are those of the listing, as far as
  the run goes, and possibly the end of the code after them.
* `IsReturnLine` — a line about a return; `isReturnLine_iff` — it is about nothing else.
* `Machine.run_followsListing` — all of it for the lines that are logged.
-/

/-! ### Lines -/

/-- The line about an instruction at an address. -/
def lineOf (item : Nat × Instruction) : String := listingLine item.1 item.2

/-- The lines of a listing, without its heading. -/
def Chunk.lines (c : Chunk) : List String := c.listing.map lineOf

/-- A listing is a heading and its lines. -/
theorem Chunk.disassemble_eq_lines (c : Chunk) (name : String) :
    c.disassemble name = "== " ++ name ++ " ==\n" ++ String.join (c.lines.map (· ++ "\n")) := by
  rw [disassemble, lines, List.map_map]
  rfl

/-! ### Reading a line -/

/-- The number at the front of a text, and what follows it. -/
def readDecimal (text : List Char) : Nat × List Char :=
  (Nat.ofDigitChars 10 (text.takeWhile Char.isDigit) 0, text.dropWhile Char.isDigit)

/-- What a line says: the number at its front, and the text behind the space after it. -/
def readEntry (line : String) : Nat × String :=
  ((readDecimal line.toList).1, String.ofList ((readDecimal line.toList).2.drop 1))

/-- A line that tells of a return. -/
def IsReturnLine (line : String) : Prop := (readEntry line).2 = "RETURN"

/-- A number is written with digits only. -/
theorem isDigit_of_mem_toString {n : Nat} {c : Char} (h : c ∈ (toString n).toList) :
    c.isDigit = true := by
  rw [Nat.toString_eq_ofList_toDigits, String.toList_ofList] at h
  exact Nat.isDigit_of_mem_toDigits (by decide) (by decide) h

/-- So is a number with zeros before it. -/
theorem isDigit_of_mem_padded {k n : Nat} {c : Char}
    (h : c ∈ List.replicate k '0' ++ (toString n).toList) : c.isDigit = true := by
  rcases List.mem_append.1 h with hzero | hdigit
  · rw [List.eq_of_mem_replicate hzero]
    decide
  · exact isDigit_of_mem_toString hdigit

/-- Zeros before a number do not change it. -/
theorem ofDigitChars_replicate_append (k n : Nat) :
    Nat.ofDigitChars 10 (List.replicate k '0' ++ (toString n).toList) 0 = n := by
  rw [Nat.ofDigitChars_append, Nat.ofDigitChars_replicate_zero, Nat.mul_zero,
    Nat.toString_eq_ofList_toDigits, String.toList_ofList, Nat.ofDigitChars_ten_toDigits]

/-- A number is read as it was written, with zeros before it or without, if no digit follows. -/
theorem readDecimal_padded (k n : Nat) {rest : List Char} (h : Stops Char.isDigit rest) :
    readDecimal (List.replicate k '0' ++ (toString n).toList ++ rest) = (n, rest) := by
  have hall : ∀ c ∈ List.replicate k '0' ++ (toString n).toList, c.isDigit = true :=
    fun _ => isDigit_of_mem_padded
  rw [readDecimal, h.takeWhile_append hall, h.dropWhile_append hall,
    ofDigitChars_replicate_append]

/-- An address is written as a number with zeros before it. -/
theorem toList_addressText (address : Nat) :
    (addressText address).toList
      = List.replicate (4 - (toString address).length) '0' ++ (toString address).toList := by
  rw [addressText, Text.alignRight, Text.fill, String.toList_append, String.toList_ofList]

/-- An address is written with digits only. -/
theorem isDigit_of_mem_addressText {address : Nat} {c : Char}
    (h : c ∈ (addressText address).toList) : c.isDigit = true := by
  rw [toList_addressText] at h
  exact isDigit_of_mem_padded h

/-- In a line, a space divides the address from the text of the instruction. -/
theorem toList_listingLine (address : Nat) (i : Instruction) :
    (listingLine address i).toList = (addressText address).toList ++ ' ' :: i.text.toList := by
  rw [listingLine, String.toList_append, String.toList_append, List.append_assoc]
  rfl

/-- The address and the text of an instruction are read off its line. -/
theorem readEntry_listingLine (address : Nat) (i : Instruction) :
    readEntry (listingLine address i) = (address, i.text) := by
  have hstop : Stops Char.isDigit (' ' :: i.text.toList) := stops_cons.2 rfl
  have hread : readDecimal (listingLine address i).toList = (address, ' ' :: i.text.toList) := by
    rw [toList_listingLine, toList_addressText]
    exact readDecimal_padded _ address hstop
  rw [readEntry, hread, List.drop_one, List.tail_cons, String.ofList_toList]

theorem readEntry_lineOf (item : Nat × Instruction) :
    readEntry (lineOf item) = (item.1, item.2.text) :=
  readEntry_listingLine item.1 item.2

/-- The lines of a listing tell the addresses and the texts of its instructions. -/
theorem Chunk.map_readEntry_lines (c : Chunk) :
    c.lines.map readEntry = c.listing.map fun item => (item.1, item.2.text) := by
  rw [lines, List.map_map]
  exact List.map_congr_left fun item _ => readEntry_lineOf item

/-! ### Lines about a return -/

/-- A text goes on with the first letter of what it begins with. -/
theorem head?_append_of_head? {s : String} (t : String) {c : Char}
    (h : s.toList.head? = some c) : (s ++ t).toList.head? = some c := by
  rw [String.toList_append, List.head?_append, h]
  rfl

/-- No other instruction is written like a return. -/
theorem Instruction.eq_ret_of_text {i : Instruction} (h : i.text = "RETURN") :
    i = .simple .ret := by
  have first_ne : ∀ c, c ≠ 'R' → i.text.toList.head? ≠ some c := by
    intro c hc hfirst
    rw [h] at hfirst
    injection hfirst with hfirst
    exact hc hfirst.symm
  cases i with
  | simple opcode => cases opcode <;> first | rfl | exact absurd h (by decide)
  | truncated opcode => cases opcode <;> exact absurd h (by decide)
  | pastEnd => exact absurd h (by decide)
  -- The first letter is another one, whatever index or byte follows.
  | constant index value =>
    refine absurd ?_ (first_ne 'C' (by decide))
    iterate 5 apply head?_append_of_head?
    rfl
  | unknown byte => exact absurd (head?_append_of_head? _ rfl) (first_ne 'U' (by decide))

/-- A line tells of a return exactly if it is about one. -/
theorem isReturnLine_iff (address : Nat) (i : Instruction) :
    IsReturnLine (listingLine address i) ↔ i = .simple .ret := by
  rw [IsReturnLine, readEntry_listingLine]
  constructor
  · exact Instruction.eq_ret_of_text
  · rintro rfl
    rfl

/-! ### Runs along the listing -/

namespace Machine

variable {chunk : Chunk} {m last : Machine} {ms : List Machine}

/-- The lines that a run logs. -/
def Run.messages (r : Run) (chunk : Chunk) : List String := (r.events chunk).map Event.message

/-- The lines of a log are those about the instructions that a run comes to. -/
theorem Run.messages_eq (r : Run) (chunk : Chunk) :
    r.messages chunk = (r.visited.map (upcoming chunk)).map lineOf := by
  rw [messages, Run.events, List.map_map, List.map_map]
  rfl

/-- At the end of the code there is nothing to carry out. -/
theorem upcoming_of_eq_length (h : m.address = chunk.length) :
    upcoming chunk m = (chunk.length, .pastEnd) := by
  have hnone : chunk.byte? chunk.length = none := Chunk.byte?_eq_none_iff.2 (Nat.le_refl _)
  simp only [upcoming, Instruction.decode, h, hnone]

/-- The instructions that a run comes to are those of the listing, as far as it goes; a run that
    goes further than the listing comes to the end of the code. -/
theorem upcoming_runFrom (chunk : Chunk) (hm : m.address ≤ chunk.length) :
    (runFrom chunk m).visited.map (upcoming chunk) <+: chunk.listingFrom m.address ∨
      (runFrom chunk m).visited.map (upcoming chunk)
        = chunk.listingFrom m.address ++ [(chunk.length, .pastEnd)] := by
  obtain ⟨ms, last, hsteps, hvisited, -⟩ := exists_steps_runFrom chunk m
  rw [hvisited, List.map_append, hsteps.listingFrom_eq]
  -- All that matters is whether the last instruction is one of the code.
  by_cases hlast : last.address < chunk.length
  · left
    rw [Chunk.listingFrom_of_lt hlast]
    exact ⟨chunk.listingFrom (Instruction.decode chunk last.address).2, List.append_assoc ..⟩
  · right
    have hend : last.address = chunk.length := by
      have hle := hsteps.address_le hm
      omega
    rw [Chunk.listingFrom_of_le (Nat.le_of_eq hend.symm), List.append_nil, List.map_singleton,
      upcoming_of_eq_length hend]

/-- None of the instructions with which a run goes on is a return. -/
theorem Steps.upcoming_ne_ret (h : Steps chunk m ms last) :
    ∀ q ∈ ms, (upcoming chunk q).2 ≠ .simple .ret := by
  induction h with
  | refl => exact List.forall_mem_nil _
  | cons hstep _ ih => exact List.forall_mem_cons.2 ⟨decode_of_step_none hstep, ih⟩

/-- What the log of a run tells. It follows the listing, and so do the addresses and instructions
    that it is about, which can be read off its lines; there is a line for every step, the one that
    ends the run included; where the run fails, the last line is about the instruction that fails,
    and its address can be read there; and where it does not fail, the last line and no other tells
    of a return. -/
structure Run.FollowsListing (r : Run) (chunk : Chunk) : Prop where
  follows : r.messages chunk <+: chunk.lines ∨
    r.messages chunk = chunk.lines ++ [listingLine chunk.length .pastEnd]
  entries : r.visited.map (upcoming chunk) <+: chunk.listing ∨
    r.visited.map (upcoming chunk) = chunk.listing ++ [(chunk.length, .pastEnd)]
  reads : (r.messages chunk).map readEntry
    = r.visited.map fun q => (q.address, (upcoming chunk q).2.text)
  steps : ∃ ms last, Steps chunk initial ms last ∧ Ends chunk last r.result ∧
    (r.messages chunk).length = ms.length + 1
  fault : ∀ fault, r.result = .error fault →
    ∃ earlier line i, r.messages chunk = earlier ++ [line] ∧ line = listingLine fault.offset i ∧
      (readEntry line).1 = fault.offset ∧
        (r.visited.map (upcoming chunk)).getLast? = some (fault.offset, i)
  ret : ∀ value, r.result = .ok value →
    ∃ earlier line, r.messages chunk = earlier ++ [line] ∧ IsReturnLine line ∧
      ∀ l ∈ earlier, ¬ IsReturnLine l

/-- What the lines of a log say is what the machine was about to carry out. -/
theorem Run.map_readEntry_messages (r : Run) (chunk : Chunk) :
    (r.messages chunk).map readEntry
      = r.visited.map fun q => (q.address, (upcoming chunk q).2.text) := by
  rw [messages_eq, List.map_map, List.map_map]
  exact List.map_congr_left fun q _ => readEntry_lineOf (upcoming chunk q)

/-- A run from the beginning comes to the instructions of the whole listing, as far as it goes. -/
theorem upcoming_run (chunk : Chunk) :
    (initial.run chunk).visited.map (upcoming chunk) <+: chunk.listing ∨
      (initial.run chunk).visited.map (upcoming chunk)
        = chunk.listing ++ [(chunk.length, .pastEnd)] :=
  upcoming_runFrom chunk (Nat.zero_le _)

/-- The log of every run from the beginning follows the listing. -/
theorem followsListing_run (chunk : Chunk) : (initial.run chunk).FollowsListing chunk := by
  obtain ⟨ms, last, hsteps, hvisited, hends⟩ := exists_steps_runFrom chunk initial
  have hentries : (initial.run chunk).visited.map (upcoming chunk)
      = ms.map (upcoming chunk) ++ [upcoming chunk last] := by
    have hrun : (initial.run chunk).visited = ms ++ [last] := hvisited
    rw [hrun, List.map_append, List.map_singleton]
  have hmessages : (initial.run chunk).messages chunk
      = (ms.map (upcoming chunk)).map lineOf ++ [lineOf (upcoming chunk last)] := by
    rw [Run.messages_eq, hentries, List.map_append, List.map_singleton]
  refine ⟨?_, upcoming_run chunk, Run.map_readEntry_messages _ chunk,
    ⟨ms, last, hsteps, hends, ?_⟩, ?_, ?_⟩
  · rw [Run.messages_eq, Chunk.lines]
    rcases upcoming_run chunk with hpre | hend
    · exact .inl (hpre.map lineOf)
    · right
      rw [hend, List.map_append]
      rfl
  · rw [hmessages, List.length_append, List.length_map, List.length_map]
    rfl
  · intro fault hfault
    have hends' : Ends chunk last (.error fault) := hfault ▸ hends
    have haddress : (upcoming chunk last).1 = fault.offset := hends'.1.symm
    refine ⟨_, _, (upcoming chunk last).2, hmessages, ?_, ?_, ?_⟩
    · rw [lineOf, haddress]
    · rw [readEntry_lineOf, haddress]
    · rw [hentries, List.getLast?_concat, ← haddress]
  · intro value hvalue
    have hends' : Ends chunk last (.ok value) := hvalue ▸ hends
    obtain ⟨m', hstep⟩ := hends'
    refine ⟨_, _, hmessages, (isReturnLine_iff _ _).2 (decode_of_step_some hstep), ?_⟩
    rw [List.forall_mem_map, List.forall_mem_map]
    intro q hq
    rw [lineOf, isReturnLine_iff]
    exact hsteps.upcoming_ne_ret q hq

/-- A run that carries every instruction out comes to those of the listing and no others. -/
theorem Run.Completes.upcoming_eq {value : Float} (h : (initial.run chunk).Completes chunk value) :
    (initial.run chunk).visited.map (upcoming chunk) = chunk.listing := by
  have hlength := congrArg List.length h.addresses
  rw [List.length_map, List.length_map] at hlength
  rcases upcoming_run chunk with hpre | hend
  · exact hpre.eq_of_length (by rw [List.length_map, hlength])
  · have hlonger := congrArg List.length hend
    rw [List.length_map, List.length_append, List.length_singleton] at hlonger
    omega

/-- **The log of a run agrees with the listing,** whatever bytes and constants a chunk has and
    whatever the machine ran before. The addresses and the texts of the instructions can be read off
    the lines of both. What a source text compiles to is logged as it is listed. -/
theorem run_followsListing (m : Machine) (chunk : Chunk) (name : String) :
    chunk.disassemble name
        = "== " ++ name ++ " ==\n" ++ String.join (chunk.lines.map (· ++ "\n")) ∧
      chunk.lines.map readEntry = (chunk.listing.map fun item => (item.1, item.2.text)) ∧
      readEntry (listingLine chunk.length .pastEnd) = (chunk.length, "<end>") ∧
      (m.run chunk).FollowsListing chunk ∧
        ∀ source, compile source = .ok chunk →
          (m.run chunk).messages chunk = chunk.lines ∧
            (m.run chunk).visited.map (upcoming chunk) = chunk.listing := by
  refine ⟨chunk.disassemble_eq_lines name, chunk.map_readEntry_lines,
    readEntry_listingLine chunk.length .pastEnd, followsListing_run chunk, ?_⟩
  intro source hcompile
  obtain ⟨-, e, x, -, -, -, hfit, hcode⟩ := exists_isCodeOf_of_compile hcompile
  have hentries := (hcode.completes hfit).upcoming_eq
  refine ⟨?_, hentries⟩
  show (initial.run chunk).messages chunk = chunk.lines
  rw [Run.messages_eq, hentries, Chunk.lines]

end Machine

end Abacus
