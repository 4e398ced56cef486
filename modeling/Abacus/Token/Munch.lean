import Abacus.Token

namespace Abacus

/-!
# Longest match at the front of a text

* `splitGap` — parts the blanks and comments before a token from what follows them.
* `munch` — the longest token at the front of a text that is neither empty nor a gap, or the
  complaint about it.
* `splitGap_append`, `munch_append` — nothing is lost: the two parts make up the text.
-/

/-- Characters that only part tokens. -/
def isBlank (c : Char) : Bool := c = ' ' || c = '\t' || c = '\r' || c = '\n'

/-- Characters that may begin a name. -/
def isLetter (c : Char) : Bool := c.isAlpha || c = '_'

/-- Characters that may continue a name. -/
def isWordChar (c : Char) : Bool := isLetter c || c.isDigit

/-! ### Gaps -/

/-- Parts the leading gap of a text from the rest. A gap is made of blanks and of comments,
    which run from two slashes up to the end of the line. The flag tells whether the text begins
    inside a comment. -/
def splitGap : (inComment : Bool) → List Char → List Char × List Char
  | _, [] => ([], [])
  | true, c :: cs =>
    let (gap, rest) := splitGap (c != '\n') cs
    (c :: gap, rest)
  | false, '/' :: '/' :: cs =>
    let (gap, rest) := splitGap true cs
    ('/' :: '/' :: gap, rest)
  | false, c :: cs =>
    if isBlank c then
      let (gap, rest) := splitGap false cs
      (c :: gap, rest)
    else
      ([], c :: cs)

/-- A gap and what follows it make up the text. -/
theorem splitGap_append (inComment : Bool) (text : List Char) :
    (splitGap inComment text).1 ++ (splitGap inComment text).2 = text := by
  fun_induction splitGap inComment text <;> simp_all

theorem length_splitGap_le (inComment : Bool) (text : List Char) :
    (splitGap inComment text).2.length ≤ text.length := by
  have h := congrArg List.length (splitGap_append inComment text)
  simp only [List.length_append] at h
  omega

/-! ### Tokens -/

/-- The complaint about a string without a closing quote. -/
def unterminatedString : String := "Unterminated string."

/-- The complaint about a character that begins no token. -/
def unexpectedCharacter : String := "Unexpected character."

/-- What stands at the front of a text: its kind and lexeme, the characters it spans, and the
    text after them. -/
structure Munch where
  kind : Kind
  lexeme : String
  span : List Char
  rest : List Char

namespace Munch

/-- A token whose lexeme is the text that it spans. -/
def plain (kind : Kind) (span rest : List Char) : Munch := ⟨kind, String.ofList span, span, rest⟩

/-- A complaint about the text that it spans. -/
def complaint (message : String) (span rest : List Char) : Munch := ⟨.error, message, span, rest⟩

/-- A name or a reserved word. -/
def word (text : List Char) : Munch :=
  let span := text.takeWhile isWordChar
  let kind := ((Keyword.ofWord? (String.ofList span)).map Kind.keyword).getD .identifier
  plain kind span (text.dropWhile isWordChar)

/-- Digits, with a point and more digits if a digit follows the point. -/
def number (text : List Char) : Munch :=
  let whole := text.takeWhile Char.isDigit
  match text.dropWhile Char.isDigit with
  | '.' :: d :: rest =>
    if d.isDigit then
      plain .number (whole ++ '.' :: (d :: rest).takeWhile Char.isDigit)
        ((d :: rest).dropWhile Char.isDigit)
    else
      plain .number whole ('.' :: d :: rest)
  | rest => plain .number whole rest

/-- A string, from its opening quote, which stands before `text`, to the next quote. -/
def string (text : List Char) : Munch :=
  match text.dropWhile (· != '"') with
  | [] => complaint unterminatedString ('"' :: text) []
  | quote :: rest => plain .string ('"' :: text.takeWhile (· != '"') ++ [quote]) rest

/-- An operator, with an equals sign if one follows. -/
def operator (mark : Operator) (c : Char) : List Char → Munch
  | '=' :: rest => plain (.operator mark true) [c, '='] rest
  | rest => plain (.operator mark false) [c] rest

end Munch

/-- The longest token at the front of `c :: cs`, which is no gap. -/
def munch (c : Char) (cs : List Char) : Munch :=
  if isLetter c then .word (c :: cs)
  else if c.isDigit then .number (c :: cs)
  else if c = '"' then .string cs
  else match Delimiter.ofChar? c with
    | some mark => .plain (.delimiter mark) [c] cs
    | none =>
      match Operator.ofChar? c with
      | some mark => .operator mark c cs
      | none => .complaint unexpectedCharacter [c] cs

namespace Munch

@[simp] theorem plain_kind (kind : Kind) (span rest : List Char) :
    (plain kind span rest).kind = kind := rfl

@[simp] theorem plain_lexeme (kind : Kind) (span rest : List Char) :
    (plain kind span rest).lexeme = String.ofList span := rfl

@[simp] theorem plain_span (kind : Kind) (span rest : List Char) :
    (plain kind span rest).span = span := rfl

@[simp] theorem plain_rest (kind : Kind) (span rest : List Char) :
    (plain kind span rest).rest = rest := rfl

@[simp] theorem complaint_span (message : String) (span rest : List Char) :
    (complaint message span rest).span = span := rfl

@[simp] theorem complaint_rest (message : String) (span rest : List Char) :
    (complaint message span rest).rest = rest := rfl

theorem word_append (text : List Char) : (word text).span ++ (word text).rest = text := by
  simp [word]

theorem number_append (text : List Char) : (number text).span ++ (number text).rest = text := by
  have h := List.takeWhile_append_dropWhile (p := Char.isDigit) (l := text)
  unfold number
  split
  · next d rest hd =>
    rw [hd] at h
    -- The fraction, which begins with `d`, is parted in the same way.
    have hr := List.takeWhile_append_dropWhile (p := Char.isDigit) (l := d :: rest)
    split
    · simp only [plain_span, plain_rest, List.append_assoc, List.cons_append, hr, h]
    · simpa using h
  · simp

theorem string_append (text : List Char) :
    (string text).span ++ (string text).rest = '"' :: text := by
  have h := List.takeWhile_append_dropWhile (p := (· != '"')) (l := text)
  unfold string
  split
  · simp
  · next quote rest hq =>
    rw [hq] at h
    simp [h]

theorem operator_append (mark : Operator) (c : Char) (cs : List Char) :
    (operator mark c cs).span ++ (operator mark c cs).rest = c :: cs := by
  unfold operator
  split <;> simp

end Munch

/-- A token's span and what follows it make up the text. -/
theorem munch_append (c : Char) (cs : List Char) :
    (munch c cs).span ++ (munch c cs).rest = c :: cs := by
  unfold munch
  split
  · exact Munch.word_append _
  · split
    · exact Munch.number_append _
    · split
      · next h => rw [h]; exact Munch.string_append _
      · split
        · simp
        · split
          · exact Munch.operator_append _ _ _
          · simp

/-- A token spans at least one character. -/
theorem munch_span_ne_nil (c : Char) (cs : List Char) : (munch c cs).span ≠ [] := by
  unfold munch
  split
  · next h => simp [Munch.word, isWordChar, h]
  · split
    · next h =>
      unfold Munch.number
      split
      · split <;> simp [h]
      · simp [h]
    · split
      · unfold Munch.string
        split <;> simp
      · split
        · simp
        · split
          · unfold Munch.operator
            split <;> simp
          · simp

theorem length_munch_rest (c : Char) (cs : List Char) :
    (munch c cs).rest.length ≤ cs.length := by
  have h := congrArg List.length (munch_append c cs)
  have hs := List.length_pos_iff.2 (munch_span_ne_nil c cs)
  simp only [List.length_append, List.length_cons] at h
  omega

end Abacus
