import Abacus.Proofs.ListingPartition
import Abacus.Proofs.Printable

namespace Abacus

/-!
# The text of a listing tells the code

Nothing of an instruction is lost when it is written, but for the value of a constant beyond its
text. The bytes can be read off its line again, and so two chunks are listed alike exactly if they
have the same code and it pushes constants of the same texts.

* `Instruction.pushedText?` — the index and the text of the constant that an instruction pushes.
* `readText`, `readLine` — the bytes of an instruction and what it pushes, read off its text and off
  its line; `readText_text`, `readLine_lineOf` — what is read is what was written.
* `eq_of_join_lines_eq` — lines that are put together can be told apart again.
* `Chunk.flatMap_readLine_lines` — the code can be read off the lines of its listing.
* `Chunk.listingFrom_of_code_eq` — how the same code is listed with other constants.
* `disassemble_eq_iff` — when two chunks are listed alike.
-/

/-! ### Reading an instruction -/

open Instruction

/-- The constant that an instruction pushes: its index, and its text if there is a value. -/
def Instruction.pushedText? (i : Instruction) : Option (Nat × Option String) :=
  i.pushed?.map fun (index, value) => (index, value.map Layout.plain.write)

/-- What is listed for the value of a constant, which may be missing. -/
def shownValue : Option String → String
  | some text => "'" ++ text ++ "'"
  | none => "<missing>"

/-- What stands between the quotes around a value; a missing one has no quotes. -/
def readValue (text : List Char) : Option String :=
  if text.head? = some '<' then none else some (String.ofList text.tail.dropLast)

/-- The bytes of an instruction and what it pushes, from the first word of its text and from what
    follows. There the index of a constant begins with a digit and an unknown opcode with a letter;
    all other instructions are known by their first word. -/
def readParts (word body : List Char) : List UInt8 × Option (Nat × Option String) :=
  if body.head?.any Char.isDigit then
    let (index, rest) := readDecimal body
    ([Opcode.constant.byte, .ofNat index], some (index, readValue (rest.drop 1)))
  else if body.head? = some 'o' then
    ([.ofNat (readDecimal (body.drop "opcode ".length)).1], none)
  else
    ((Opcode.all.filter (·.name = String.ofList word)).map Opcode.byte, none)

/-- The bytes of an instruction and what it pushes, from its text. -/
def readText (text : List Char) : List UInt8 × Option (Nat × Option String) :=
  readParts (text.takeWhile (· != ' ')) ((text.dropWhile (· != ' ')).dropWhile (· == ' '))

/-- The same from a line of a listing, in which an address and a space come first. -/
def readLine (line : String) : List UInt8 × Option (Nat × Option String) :=
  readText ((line.toList.dropWhile Char.isDigit).drop 1)

/-- A number is read as it was written, if no digit follows. -/
theorem readDecimal_append (n : Nat) {rest : List Char} (h : Stops Char.isDigit rest) :
    readDecimal ((toString n).toList ++ rest) = (n, rest) :=
  readDecimal_padded 0 n h

theorem drop_length_append (s : String) (rest : List Char) :
    (s.toList ++ rest).drop s.length = rest := by
  rw [← String.length_toList, List.drop_left]

/-- A number is written as a row of digits. -/
theorem isDigits_toString (n : Nat) : Literal.isDigits (toString n).toList := by
  refine isDigits_iff.2 ⟨?_, fun _ => isDigit_of_mem_toString⟩
  rw [Nat.toString_eq_ofList_toDigits, String.toList_ofList]
  exact Nat.toDigits_ne_nil

/-- A value is read as it is shown. -/
theorem readValue_shownValue (value : Option String) :
    readValue (shownValue value).toList = value := by
  cases value with
  | none => rfl
  | some text =>
    have hchars : (shownValue (some text)).toList
        = Char.ofNat 39 :: (text.toList ++ [Char.ofNat 39]) := by
      simp [shownValue]
    rw [hchars, readValue, if_neg (by simp), List.tail_cons, List.dropLast_concat,
      String.ofList_toList]

/-- The first word of a text ends at the first space, and all spaces there are skipped. -/
theorem readText_append {word gap body : List Char} (hword : ' ' ∉ word)
    (hgap : gap.all (· == ' ') = true) (hnone : gap = [] → body = [])
    (hbody : Stops (· == ' ') body) : readText (word ++ (gap ++ body)) = readParts word body := by
  have hspaces := List.all_eq_true.1 hgap
  have hrest : Stops (· != ' ') (gap ++ body) := by
    cases gap with
    | nil =>
      -- A word without a space behind it is the whole text.
      rw [hnone rfl]
      exact stops_nil _
    | cons c gap =>
      have hc := beq_iff_eq.1 (hspaces c List.mem_cons_self)
      rw [List.cons_append, stops_cons, hc]
      rfl
  have hall := bne_of_not_mem hword
  rw [readText, hrest.takeWhile_append hall, hrest.dropWhile_append hall,
    hbody.dropWhile_append hspaces]

/-- A number begins with a digit. -/
theorem exists_head?_toString_append (n : Nat) (rest : List Char) :
    ∃ d, ((toString n).toList ++ rest).head? = some d ∧ d.isDigit = true := by
  obtain ⟨d, ds, hd, hdigit⟩ := exists_cons_of_isDigits (isDigits_toString n)
  rw [hd]
  exact ⟨d, rfl, hdigit⟩

/-- What follows the first word of a constant is its index, a space and the value. -/
theorem readParts_constant (word value : List Char) (index : Nat) :
    readParts word ((toString index).toList ++ ' ' :: value)
      = ([Opcode.constant.byte, .ofNat index], some (index, readValue value)) := by
  have hfirst : ((toString index).toList ++ ' ' :: value).head?.any Char.isDigit = true := by
    obtain ⟨d, hd, hdigit⟩ := exists_head?_toString_append index (' ' :: value)
    rw [hd]
    exact hdigit
  rw [readParts, if_pos hfirst, readDecimal_append index (stops_cons.2 rfl)]
  rfl

/-- The byte of an unknown opcode is read off its text. -/
theorem readParts_unknown (word : List Char) (byte : Nat) :
    readParts word ("opcode ".toList ++ (toString byte).toList) = ([.ofNat byte], none) := by
  have hfirst : ("opcode ".toList ++ (toString byte).toList).head? = some 'o' := rfl
  rw [readParts, if_neg (by rw [hfirst]; decide), if_pos hfirst, drop_length_append,
    ← List.append_nil (toString byte).toList, readDecimal_append byte (stops_nil _)]

/-- The name of an opcode is one word. -/
theorem Opcode.space_notMem_name (opcode : Opcode) : ' ' ∉ opcode.name.toList := by
  cases opcode <;> decide

/-- Opcodes are told apart by their names. -/
theorem Opcode.filter_name (opcode : Opcode) : all.filter (·.name = opcode.name) = [opcode] := by
  cases opcode <;> rfl

/-- What follows the first word of other instructions tells nothing about their bytes. -/
theorem readParts_name (opcode : Opcode) {body : List Char}
    (hdigit : body.head?.any Char.isDigit = false) (hletter : body.head? ≠ some 'o') :
    readParts opcode.name.toList body = ([opcode.byte], none) := by
  rw [readParts, if_neg (by simp [hdigit]), if_neg hletter, String.ofList_toList,
    Opcode.filter_name]
  rfl

/-- The text of a constant tells the index and the text of the value. -/
theorem Instruction.text_constant (index : UInt8) (value : Option Float) :
    (constant index value).text
      = Text.alignLeft nameWidth Opcode.constant.name ++ " "
        ++ Text.alignRight ' ' 4 (toString index.toNat) ++ " "
        ++ shownValue (value.map Layout.plain.write) := by
  cases value <;> rfl

/-- The index of a constant is written between two rows of spaces. -/
theorem readText_constant (index : UInt8) (value : String) :
    readText (Text.alignLeft nameWidth Opcode.constant.name ++ " "
        ++ Text.alignRight ' ' 4 (toString index.toNat) ++ " " ++ value).toList
      = ([Opcode.constant.byte, index], some (index.toNat, readValue value.toList)) := by
  have hchars : (Text.alignLeft nameWidth Opcode.constant.name ++ " "
        ++ Text.alignRight ' ' 4 (toString index.toNat) ++ " " ++ value).toList
      = Opcode.constant.name.toList
        ++ ((List.replicate (nameWidth - Opcode.constant.name.length) ' '
            ++ ' ' :: List.replicate (4 - (toString index.toNat).length) ' ')
          ++ ((toString index.toNat).toList ++ ' ' :: value.toList)) := by
    simp [Text.alignLeft, Text.alignRight, Text.fill]
  have hbody : Stops (· == ' ') ((toString index.toNat).toList ++ ' ' :: value.toList) := by
    obtain ⟨d, hd, hdigit⟩ := exists_head?_toString_append index.toNat (' ' :: value.toList)
    intro c hc
    rw [hd, Option.mem_some_iff] at hc
    rw [← hc, beq_eq_false_iff_ne]
    rintro rfl
    cases hdigit
  have hgap : (List.replicate (nameWidth - Opcode.constant.name.length) ' '
      ++ ' ' :: List.replicate (4 - (toString index.toNat).length) ' ').all (· == ' ') = true := by
    simp [List.all_replicate]
  rw [hchars, readText_append Opcode.constant.space_notMem_name hgap (by simp) hbody,
    readParts_constant, UInt8.ofNat_toNat]

/-- The bytes of an instruction, and what it pushes, are read off its text. -/
theorem readText_text (i : Instruction) : readText i.text.toList = (i.encode, i.pushedText?) := by
  cases i with
  | constant index value =>
    rw [text_constant, readText_constant, readValue_shownValue]
    rfl
  | simple opcode =>
    have hchars : (simple opcode).text.toList = opcode.name.toList ++ ([] ++ []) :=
      (List.append_nil _).symm
    rw [hchars, readText_append opcode.space_notMem_name rfl (fun _ => rfl) (stops_nil _),
      readParts_name opcode rfl (by simp)]
    rfl
  | truncated opcode =>
    have hchars : (truncated opcode).text.toList
        = opcode.name.toList ++ ((List.replicate (nameWidth - opcode.name.length) ' ' ++ [' '])
          ++ "<truncated>".toList) := by
      show (Text.alignLeft nameWidth opcode.name ++ " <truncated>").toList = _
      simp [Text.alignLeft, Text.fill]
    have hgap : (List.replicate (nameWidth - opcode.name.length) ' ' ++ [' ']).all (· == ' ')
        = true := by simp [List.all_replicate]
    have hbody : Stops (· == ' ') "<truncated>".toList := stops_cons.2 rfl
    rw [hchars, readText_append opcode.space_notMem_name hgap (by simp) hbody,
      readParts_name opcode rfl (by decide)]
    rfl
  | unknown byte =>
    have hchars : (unknown byte).text.toList
        = "Unknown".toList ++ ([' '] ++ ("opcode ".toList ++ (toString byte.toNat).toList)) :=
      String.toList_append
    have hbody : Stops (· == ' ') ("opcode ".toList ++ (toString byte.toNat).toList) :=
      stops_cons.2 rfl
    rw [hchars, readText_append (by decide) rfl (by simp) hbody, readParts_unknown,
      UInt8.ofNat_toNat]
    rfl
  | pastEnd => rfl

/-- A line is read as the text of the instruction that it tells. -/
theorem readLine_eq (line : String) : readLine line = readText (readEntry line).2.toList := by
  rw [readEntry, String.toList_ofList]
  rfl

/-- So the bytes of an instruction, and what it pushes, are read off its line. -/
theorem readLine_lineOf (item : Nat × Instruction) :
    readLine (lineOf item) = (item.2.encode, item.2.pushedText?) := by
  rw [readLine_eq, readEntry_lineOf]
  exact readText_text item.2

/-! ### Lines -/

/-- Lines that are put together can be told apart again. -/
theorem eq_of_join_lines_eq {ls ls' : List String} (h : ∀ l ∈ ls, '\n' ∉ l.toList)
    (h' : ∀ l ∈ ls', '\n' ∉ l.toList)
    (heq : String.join (ls.map (· ++ "\n")) = String.join (ls'.map (· ++ "\n"))) : ls = ls' := by
  induction ls generalizing ls' with
  | nil =>
    cases ls' with
    | nil => rfl
    | cons l' ls' => simp at heq
  | cons l ls ih =>
    cases ls' with
    | nil => simp at heq
    | cons l' ls' =>
      rw [List.forall_mem_cons] at h h'
      -- Both texts go on to their first newline with the first line.
      have hchars : l.toList ++ '\n' :: (String.join (ls.map (· ++ "\n"))).toList
          = l'.toList ++ '\n' :: (String.join (ls'.map (· ++ "\n"))).toList := by
        have hlist := congrArg String.toList heq
        simp only [List.map_cons, String.join_cons, String.toList_append, List.append_assoc]
          at hlist
        exact hlist
      obtain ⟨hl, -, hrest⟩ :=
        append_cons_inj (bne_of_not_mem h.1) (bne_of_not_mem h'.1) rfl rfl hchars
      rw [String.toList_inj.1 hl, ih h.2 h'.2 (String.toList_inj.1 hrest)]

namespace Chunk

variable {c c' : Chunk}

/-- A line of a listing is one line. -/
theorem newline_notMem_of_mem_lines {line : String} (h : line ∈ c.lines) : '\n' ∉ line.toList := by
  obtain ⟨item, -, rfl⟩ := List.mem_map.1 h
  exact (isPrintable_listingLine item.1 item.2).notMem rfl

/-- Chunks that are listed alike have the same lines. -/
theorem lines_eq_of_disassemble_eq {name : String} (h : c.disassemble name = c'.disassemble name) :
    c.lines = c'.lines := by
  rw [disassemble_eq_lines, disassemble_eq_lines, String.append_right_inj] at h
  exact eq_of_join_lines_eq (fun _ => newline_notMem_of_mem_lines)
    (fun _ => newline_notMem_of_mem_lines) h

/-- The code can be read off the lines of its listing. -/
theorem flatMap_readLine_lines (c : Chunk) :
    c.lines.flatMap (fun line => (readLine line).1) = c.code.toList := by
  rw [lines, List.flatMap_map]
  simp only [readLine_lineOf]
  exact c.flatMap_encode_listingFrom 0

/-- A constant that can be read off a line is the one at its index. -/
theorem map_constant?_of_mem_lines {line : String} {index : Nat} {value : Option String}
    (h : line ∈ c.lines) (hread : (readLine line).2 = some (index, value)) :
    (c.constant? index).map Layout.plain.write = value := by
  obtain ⟨item, hitem, rfl⟩ := List.mem_map.1 h
  obtain ⟨next, hi, -⟩ := stands_of_mem_listingFrom hitem
  rw [readLine_lineOf, pushedText?, hi.pushed?_eq, Option.map_map] at hread
  obtain ⟨operand, -, heq⟩ := Option.map_eq_some_iff.1 hread
  obtain ⟨rfl, rfl⟩ := Prod.mk.inj heq
  rfl

/-! ### The same code with other constants -/

/-- With other constants, the same code is listed with these. -/
theorem listingFrom_of_code_eq (hcode : c'.code = c.code) (address : Nat) :
    c'.listingFrom address
      = (c.listingFrom address).map fun item => (item.1, item.2.withConstantsOf c') := by
  have hlength : c'.length = c.length := congrArg Array.size hcode
  fun_induction listingFrom c address with
  | case1 address hlt hnext ih =>
    obtain ⟨i, next, hi⟩ := exists_stands c address
    rw [hi.decode_eq] at ih ⊢
    rw [listingFrom_of_lt (by omega), (hi.withConstantsOf hcode).decode_eq, ih, List.map_cons]
  | case2 address hlt => exact listingFrom_of_le (by omega)

end Chunk

/-- The text of an instruction is the same with constants of the same texts. -/
theorem Instruction.Stands.text_withConstantsOf {c c' : Chunk} {address next : Nat}
    {i : Instruction} (h : Stands c address i next)
    (hvalue : ∀ index value, i = .constant index value →
      (c.constant? index.toNat).map Layout.plain.write
        = (c'.constant? index.toNat).map Layout.plain.write) :
    (i.withConstantsOf c').text = i.text := by
  cases h with
  | @constant index _ =>
    rw [Instruction.withConstantsOf, text_constant, text_constant, hvalue index _ rfl]
  | _ => rfl

/-- **The text of a listing tells the code,** whatever its bytes are: two chunks are listed alike
    exactly if their code is the same and every constant that it pushes is missing in both of them
    or has the same text in both. -/
theorem disassemble_eq_iff (c c' : Chunk) (name : String) :
    c.disassemble name = c'.disassemble name ↔
      c.code = c'.code ∧
        ∀ address index value, (address, .constant index value) ∈ c.listing ++ c'.listing →
          (c.constant? index.toNat).map Layout.plain.write
            = (c'.constant? index.toNat).map Layout.plain.write := by
  constructor
  · intro h
    have hlines := Chunk.lines_eq_of_disassemble_eq h
    constructor
    · refine Array.toList_inj.1 ?_
      rw [← c.flatMap_readLine_lines, hlines, c'.flatMap_readLine_lines]
    · intro address index value hmem
      -- The line of the constant is one of both listings, and tells the text in either chunk.
      have hline : lineOf (address, .constant index value) ∈ c'.lines := by
        rcases List.mem_append.1 hmem with hmem | hmem
        · exact hlines ▸ List.mem_map_of_mem hmem
        · exact List.mem_map_of_mem hmem
      have hread := congrArg Prod.snd (readLine_lineOf (address, .constant index value))
      rw [Chunk.map_constant?_of_mem_lines (hlines ▸ hline) hread,
        Chunk.map_constant?_of_mem_lines hline hread]
  · rintro ⟨hcode, hvalues⟩
    have hlines : c'.lines = c.lines := by
      rw [Chunk.lines, Chunk.lines, Chunk.listing, Chunk.listingFrom_of_code_eq hcode.symm,
        List.map_map]
      refine List.map_congr_left fun item hitem => ?_
      obtain ⟨next, hi, -⟩ := Chunk.stands_of_mem_listingFrom hitem
      show listingLine item.1 (item.2.withConstantsOf c') = listingLine item.1 item.2
      rw [listingLine, listingLine, hi.text_withConstantsOf]
      intro index value hconstant
      refine hvalues item.1 index value (List.mem_append_left _ ?_)
      rw [← hconstant]
      exact hitem
    rw [Chunk.disassemble_eq_lines, Chunk.disassemble_eq_lines, hlines]

-- A constant that is never pushed leaves no trace in a listing.
example : (⟨#[0, 9, 6], #[1.5]⟩ : Chunk).disassemble "sum"
    = (⟨#[0, 9, 6], #[]⟩ : Chunk).disassemble "sum" := by
  decide +kernel

end Abacus
