import Abacus.Notice
import Abacus.Proofs.ListingText
import Abacus.Proofs.TokenLog

namespace Abacus

/-!
# The printed form of a notice identifies it

A notice about a source text has a line and a column, and one about bytecode has an offset. On one
line these are written in different ways, and so a notice that has either of them can be read off
its printed form again, whatever its text is.

* `Notice.InText`, `Notice.InCode` — the two kinds of places; `Notice.Located` — a notice has one.
* `Notice.read?` — the notice that a printed form stands for; `Notice.read?_display` — it is the one
  that was printed.
* `inText_of_mem_diagnostics` — every diagnostic stands in a line of the text.
* `display_identifies` — located notices are told apart by their printed forms, and all that comes
  from compiling and running is located.
-/

/-! ### Places -/

namespace Notice

/-- A notice about a place in a source text. -/
structure InText (n : Notice) : Prop where
  offset : n.offset = none
  line : 1 ≤ n.line

/-- A notice about a place in bytecode. -/
structure InCode (n : Notice) : Prop where
  offset : n.offset ≠ none
  line : n.line = 0
  column : n.column = 0

/-- A notice about one place, in a source text or in bytecode. -/
def Located (n : Notice) : Prop := n.InText ∨ n.InCode

end Notice

/-! ### Reading a notice -/

namespace Category

/-- Every category once. -/
def all : List Category :=
  [lexError, parseError, stackOverflow, stackUnderflow, unknownOpcode, invalidConstant, endOfChunk]

/-- The category of a name. -/
def ofName? (name : String) : Option Category := all.find? (·.name = name)

/-- A category is told by its name. -/
theorem ofName?_name (category : Category) : ofName? category.name = some category := by
  cases category <;> rfl

/-- Names are written in capital letters. -/
theorem notMem_name (category : Category) : 'a' ∉ category.name.toList ++ [' '] := by
  cases category <;> decide

end Category

namespace Notice

/-- What is written behind the place. -/
def ending (text : String) : String := if text.isEmpty then "" else ": " ++ text

/-- The text that stands behind a place. -/
def readEnding (rest : List Char) : String := String.ofList (rest.drop ": ".length)

/-- The notice of a category whose place and text are written out. -/
def readPlace (category : Category) (place : List Char) : Notice :=
  if place.head? = some 'o' then
    let (offset, rest) := readDecimal (place.drop "offset ".length)
    { category, offset := some offset, text := readEnding rest }
  else
    let (line, rest) := readDecimal place
    let (column, rest) := readDecimal (rest.drop ":".length)
    { category, line, column, text := readEnding rest }

/-- The notice that a printed form stands for. The name of the category ends before the first small
    letter, which is that of `at`. -/
def read? (text : List Char) : Option Notice :=
  (Category.ofName? (String.ofList (text.takeWhile (· != 'a')).dropLast)).map fun category =>
    readPlace category ((text.dropWhile (· != 'a')).drop "at ".length)

/-- A notice is shown as its category, its place and its text. -/
theorem display_eq (n : Notice) : n.display = n.category.name ++ n.place ++ ending n.text := rfl

/-- The text of a notice is read off its end. -/
theorem readEnding_ending (text : String) : readEnding (ending text).toList = text := by
  unfold ending
  split
  · next h =>
    rw [String.isEmpty_iff.1 h]
    rfl
  · rw [readEnding, String.toList_append, drop_length_append, String.ofList_toList]

/-- The number before the text of a notice ends there. -/
theorem stops_ending (text : String) : Stops Char.isDigit (ending text).toList := by
  unfold ending
  split
  · exact stops_nil _
  · rw [String.toList_append]
    exact stops_cons.2 rfl

/-- The category is read as it was written. -/
theorem read?_append (category : Category) (rest : List Char) :
    read? (category.name.toList ++ (" at ".toList ++ rest)) = some (readPlace category rest) := by
  -- The space before `at` is taken with the name, and dropped again.
  have hchars : category.name.toList ++ (" at ".toList ++ rest)
      = (category.name.toList ++ [' ']) ++ 'a' :: ("t ".toList ++ rest) := by
    rw [List.append_assoc]
    rfl
  have hall := bne_of_not_mem category.notMem_name
  have hs : Stops (· != 'a') ('a' :: ("t ".toList ++ rest)) := stops_cons.2 rfl
  rw [hchars, read?, hs.takeWhile_append hall, hs.dropWhile_append hall, List.dropLast_concat,
    String.ofList_toList, Category.ofName?_name]
  rfl

/-- So is an offset. -/
theorem readPlace_offset (category : Category) (offset : Nat) (text : String) :
    readPlace category ("offset ".toList ++ ((toString offset).toList ++ (ending text).toList))
      = { category, offset := some offset, text } := by
  have hfirst : ("offset ".toList ++ ((toString offset).toList ++ (ending text).toList)).head?
      = some 'o' := rfl
  rw [readPlace, if_pos hfirst, drop_length_append,
    readDecimal_append offset (stops_ending text)]
  simp only [readEnding_ending]

/-- So are a line and a column. -/
theorem readPlace_line (category : Category) (line column : Nat) (text : String) :
    readPlace category ((toString line).toList
        ++ ':' :: ((toString column).toList ++ (ending text).toList))
      = { category, line, column, text } := by
  have hfirst : ((toString line).toList
      ++ ':' :: ((toString column).toList ++ (ending text).toList)).head? ≠ some 'o' := by
    obtain ⟨d, hd, hdigit⟩ := exists_head?_toString_append line _
    rw [hd]
    rintro ⟨rfl⟩
    cases hdigit
  rw [readPlace, if_neg hfirst, readDecimal_append line (stops_cons.2 rfl)]
  show (match readDecimal ((toString column).toList ++ (ending text).toList) with
    | (column, rest) => ({ category, line, column, text := readEnding rest } : Notice)) = _
  rw [readDecimal_append column (stops_ending text)]
  simp only [readEnding_ending]

/-- A located notice is read off its printed form. -/
theorem read?_display {n : Notice} (h : n.Located) : read? n.display.toList = some n := by
  obtain ⟨category, line, column, offset, text⟩ := n
  rcases h with h | h
  · obtain rfl : offset = none := h.offset
    have hline : 0 < line := h.line
    have hchars : (display ⟨category, line, column, none, text⟩).toList
        = category.name.toList ++ (" at ".toList ++ ((toString line).toList
          ++ ':' :: ((toString column).toList ++ (ending text).toList))) := by
      simp [display_eq, place, hline]
    rw [hchars, read?_append, readPlace_line]
  · obtain ⟨address, rfl⟩ := Option.ne_none_iff_exists'.1 h.offset
    obtain rfl : line = 0 := h.line
    obtain rfl : column = 0 := h.column
    have hchars : (display ⟨category, 0, 0, some address, text⟩).toList
        = category.name.toList ++ (" at ".toList ++ ("offset ".toList
          ++ ((toString address).toList ++ (ending text).toList))) := by
      simp [display_eq, place]
    rw [hchars, read?_append, readPlace_offset]

/-- Located notices are told apart by their printed forms. -/
theorem eq_of_display_eq {n n' : Notice} (hn : n.Located) (hn' : n'.Located)
    (h : n.display = n'.display) : n = n' := by
  have hread := read?_display hn
  rw [h, read?_display hn'] at hread
  exact (Option.some.inj hread).symm

end Notice

/-! ### Where notices come from -/

/-- Every token of a text stands in one of its lines, which count from one. -/
theorem one_le_line_of_mem_scan {source : String} {t : Token} (ht : t ∈ (scan source).toList) :
    1 ≤ t.position.line := by
  have hle : Position.start ≤ t.position :=
    (Cursor.pairwise_scan (.ofSource source)).2 _ (List.mem_map_of_mem ht)
  rcases hle.eq_or_lt with heq | hlt
  · rw [← heq]
    exact Nat.le_refl 1
  · rcases Position.lt_iff.1 hlt with hline | ⟨hline, -⟩
    · exact hline.le
    · exact hline.le

/-- Whatever compiling finds wrong is placed in the text. -/
theorem inText_of_mem_diagnostics {chunk : Chunk} {source : String} {d : Diagnostic}
    (hd : d ∈ (compileInto chunk source).diagnostics) : d.notice.InText := by
  rcases exists_token_of_mem_diagnostics hd with ⟨t, ht, -, rfl⟩ | ⟨complaint, t, ht, rfl⟩
  · exact ⟨rfl, one_le_line_of_mem_scan (List.mem_append_left _ ht)⟩
  · exact ⟨rfl, one_le_line_of_mem_scan ht⟩

/-- A diagnostic is no fault. -/
theorem Diagnostic.isFault_notice (d : Diagnostic) : d.notice.category.isFault = false := by
  obtain ⟨cause, position⟩ := d
  cases cause <;> rfl

/-- A fault is placed in the code. -/
theorem Fault.inCode_notice (f : Fault) : f.notice.InCode := ⟨Option.some_ne_none _, rfl, rfl⟩

theorem Fault.isFault_notice (f : Fault) : f.notice.category.isFault = true := by
  obtain ⟨cause, offset⟩ := f
  cases cause <;> rfl

/-- **The printed form of a notice identifies it,** whatever its text is, if it is about a place in
    a source text or in bytecode. Everything that compiling says is about the source text and no
    fault, and every failed run is a fault in the bytecode. -/
theorem display_identifies :
    (∀ n n' : Notice, n.Located → n'.Located → n.display = n'.display → n = n') ∧
      (∀ (chunk : Chunk) (source : String), ∀ d ∈ (compileInto chunk source).diagnostics,
        d.notice.InText ∧ d.notice.category.isFault = false) ∧
      ∀ (m : Machine) (chunk : Chunk) (fault : Fault), (m.run chunk).result = .error fault →
        fault.notice.InCode ∧ fault.notice.category.isFault = true := by
  refine ⟨?_, ?_, ?_⟩
  · intro n n' hn hn' h
    exact Notice.eq_of_display_eq hn hn' h
  · intro chunk source d hd
    exact ⟨inText_of_mem_diagnostics hd, d.isFault_notice⟩
  · intro m chunk fault _
    exact ⟨fault.inCode_notice, fault.isFault_notice⟩

/-- What is said about `1 +` is the only notice of its printed form, and a run without any code is a
    fault. -/
theorem display_identifies_missing :
    (∃ d ∈ (compileInto .empty "1 +").diagnostics,
        d.notice.display = "PARSE ERROR at 1:4: Expect expression." ∧
          ∀ n : Notice, n.Located → n.display = "PARSE ERROR at 1:4: Expect expression." →
            n = d.notice) ∧
      ∃ fault, (Machine.initial.run .empty).result = .error fault ∧ fault.notice.InCode ∧
        fault.notice.category.isFault = true := by
  obtain ⟨hidentifies, hcompile, hrun⟩ := display_identifies
  constructor
  · obtain ⟨d, hmem, hd⟩ : ∃ d ∈ (compileInto .empty "1 +").diagnostics,
        d.notice.display = "PARSE ERROR at 1:4: Expect expression." := by decide +kernel
    refine ⟨d, hmem, hd, ?_⟩
    intro n hn hdisplay
    exact hidentifies n _ hn (.inl (hcompile _ _ d hmem).1) (hdisplay.trans hd.symm)
  · have hstep : Machine.step .empty Machine.initial.reset
        = .error .endOfChunk Machine.initial.reset := rfl
    have hresult : (Machine.initial.run .empty).result = .error ⟨.endOfChunk, 0⟩ := by
      rw [Machine.run, Machine.runFrom_of_error hstep]
      rfl
    exact ⟨_, hresult, hrun _ _ _ hresult⟩

end Abacus
