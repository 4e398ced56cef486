import Abacus.Proofs.Numeral

namespace Abacus

/-!
# What can stand at the front of a text

The tests that tell what stands at the front of a text, told as a relation with one rule for each
outcome. Every fact about all tokens is a case split over these rules.

* `Stops p rest` — the characters before `rest` go no further in the class `p`.
* `Munched m` — `m` is a token, or a complaint, in front of its rest.
* `munched_munch` — what `munch` finds is found by the rules.
* `Munched.exists_munch_eq` — the rules find nothing else.
-/

/-- The letters of words are those of the English alphabet and the underscore. -/
theorem isLetter_iff {c : Char} :
    isLetter c = true ↔ 'A' ≤ c ∧ c ≤ 'Z' ∨ 'a' ≤ c ∧ c ≤ 'z' ∨ c = '_' := by
  show (decide ('A' ≤ c ∧ c ≤ 'Z') || (decide ('a' ≤ c) && decide (c ≤ 'z'))
    || decide (c = '_')) = true ↔ _
  simp only [Bool.or_eq_true, Bool.and_eq_true, decide_eq_true_eq, or_assoc]

/-- The digits are the ten decimal ones. -/
theorem isDigit_iff {c : Char} : c.isDigit = true ↔ '0' ≤ c ∧ c ≤ '9' := by
  show (decide ('0' ≤ c) && decide (c ≤ '9')) = true ↔ _
  simp only [Bool.and_eq_true, decide_eq_true_eq]

/-- Every digit comes before every letter in the order of characters. -/
theorem isLetter_eq_false_of_isDigit {c : Char} (h : c.isDigit = true) : isLetter c = false := by
  rw [Bool.eq_false_iff, ne_eq, isLetter_iff]
  have hle : c ≤ '9' := (isDigit_iff.1 h).2
  rintro (⟨hc, -⟩ | ⟨hc, -⟩ | rfl)
  · exact absurd (Char.le_trans hc hle) (by decide)
  · exact absurd (Char.le_trans hc hle) (by decide)
  · exact absurd hle (by decide)

theorem bne_of_not_mem {text : List Char} {d : Char} (h : d ∉ text) :
    ∀ c ∈ text, (c != d) = true := by
  intro c hc
  rw [bne_iff_ne]
  rintro rfl
  exact h hc

/-- A text does not go on with a character of a class. -/
def Stops (p : Char → Bool) (rest : List Char) : Prop := ∀ c ∈ rest.head?, p c = false

@[simp] theorem stops_nil (p : Char → Bool) : Stops p [] := by
  intro c hc
  cases hc

@[simp] theorem stops_cons {p : Char → Bool} {c : Char} {rest : List Char} :
    Stops p (c :: rest) ↔ p c = false := by
  simp [Stops]

/-- What is left when a class of characters is dropped goes on with another one. -/
theorem stops_dropWhile (p : Char → Bool) (text : List Char) : Stops p (text.dropWhile p) := by
  intro c hc
  have h := List.head?_dropWhile_not p text
  rw [Option.mem_def.1 hc] at h
  exact h

namespace Stops

variable {p : Char → Bool} {word rest : List Char}

/-- A word of a class is taken whole off a text, if nothing of the class follows it. -/
theorem takeWhile_append (h : Stops p rest) (hw : ∀ c ∈ word, p c) :
    (word ++ rest).takeWhile p = word := by
  rw [List.takeWhile_append_of_pos hw]
  cases rest with
  | nil => exact List.append_nil _
  | cons c rest =>
    rw [List.takeWhile_cons_of_neg (by simp [stops_cons.1 h]), List.append_nil]

/-- What follows a word of a class is left when the word is dropped. -/
theorem dropWhile_append (h : Stops p rest) (hw : ∀ c ∈ word, p c) :
    (word ++ rest).dropWhile p = rest := by
  rw [List.dropWhile_append_of_pos hw]
  cases rest with
  | nil => rfl
  | cons c rest => rw [List.dropWhile_cons_of_neg (by simp [stops_cons.1 h])]

end Stops

/-- The kind of a word: a reserved one, or a name. -/
def wordKind (word : List Char) : Kind :=
  ((Keyword.ofWord? (String.ofList word)).map Kind.keyword).getD .identifier

/-- A word is reserved or a name, and its kind says which. -/
theorem wordKind_cases (word : List Char) :
    (∃ k : Keyword, String.ofList word = k.word ∧ wordKind word = .keyword k) ∨
      (∀ k : Keyword, String.ofList word ≠ k.word) ∧ wordKind word = .identifier := by
  unfold wordKind
  cases hk : Keyword.ofWord? (String.ofList word) with
  | some k => exact .inl ⟨k, (Keyword.word_eq_of_ofWord? hk).symm, rfl⟩
  | none =>
    refine .inr ⟨?_, rfl⟩
    intro k hw
    rw [hw, Keyword.ofWord?_word] at hk
    cases hk

/-- No token begins with a character. -/
structure BeginsNoToken (c : Char) : Prop where
  letter : isLetter c = false
  digit : c.isDigit = false
  quote : c ≠ '"'
  delimiter : ∀ mark : Delimiter, mark.char ≠ c
  operator : ∀ mark : Operator, mark.char ≠ c

namespace BeginsNoToken

variable {c : Char}

/-- A character that begins no token is no delimiter. -/
theorem ofChar?_delimiter (h : BeginsNoToken c) : Delimiter.ofChar? c = none := by
  refine List.find?_eq_none.2 ?_
  intro mark _
  simpa using h.delimiter mark

/-- A character that begins no token is no operator. -/
theorem ofChar?_operator (h : BeginsNoToken c) : Operator.ofChar? c = none := by
  refine List.find?_eq_none.2 ?_
  intro mark _
  simpa using h.operator mark

end BeginsNoToken

/-- A token or a complaint, with what it spans and what follows it. -/
inductive Munched : Munch → Prop where
  | word {c : Char} {cs rest : List Char} :
      isLetter c → (∀ d ∈ cs, isWordChar d) → Stops isWordChar rest →
        Munched (.plain (wordKind (c :: cs)) (c :: cs) rest)
  | whole {digits rest : List Char} :
      Literal.isDigits digits → Stops Char.isDigit rest →
        (∀ more, rest = '.' :: more → Stops Char.isDigit more) →
          Munched (.plain .number digits rest)
  | fraction {whole digits rest : List Char} :
      Literal.isDigits whole → Literal.isDigits digits → Stops Char.isDigit rest →
        Munched (.plain .number (whole ++ '.' :: digits) rest)
  | closed {text rest : List Char} :
      '"' ∉ text → Munched (.plain .string ('"' :: text ++ ['"']) rest)
  | unclosed {text : List Char} :
      '"' ∉ text → Munched (.complaint unterminatedString ('"' :: text) [])
  | delimiter {mark : Delimiter} {rest : List Char} :
      Munched (.plain (.delimiter mark) [mark.char] rest)
  | single {mark : Operator} {rest : List Char} :
      Stops (· = '=') rest → Munched (.plain (.operator mark false) [mark.char] rest)
  | joined {mark : Operator} {rest : List Char} :
      Munched (.plain (.operator mark true) [mark.char, '='] rest)
  | unexpected {c : Char} {rest : List Char} :
      BeginsNoToken c → Munched (.complaint unexpectedCharacter [c] rest)

/-! ### The outcomes one by one -/

theorem forall_mem_takeWhile (p : Char → Bool) (text : List Char) :
    ∀ c ∈ text.takeWhile p, p c :=
  List.all_eq_true.1 List.all_takeWhile

namespace Munched

/-- A letter is the beginning of a word, which goes on as far as there are letters and digits. -/
theorem of_word {c : Char} (h : isLetter c) (cs : List Char) : Munched (.word (c :: cs)) := by
  have hc : isWordChar c := by simp [isWordChar, h]
  have hw := word h (forall_mem_takeWhile isWordChar cs) (stops_dropWhile isWordChar cs)
  rwa [← List.takeWhile_cons_of_pos hc, ← List.dropWhile_cons_of_pos hc] at hw

/-- A digit is the beginning of a number, with a fraction if a point and a digit follow it. -/
theorem of_number {c : Char} (h : c.isDigit) (cs : List Char) : Munched (.number (c :: cs)) := by
  have hw := isDigits_takeWhile h cs
  have hs := stops_dropWhile Char.isDigit (c :: cs)
  unfold Munch.number
  split
  · next d rest hd =>
    rw [hd] at hs
    split
    · next hdigit =>
      exact fraction hw (isDigits_takeWhile hdigit rest) (stops_dropWhile Char.isDigit (d :: rest))
    · next hdigit =>
      refine whole hw hs ?_
      intro more hmore
      injection hmore with _ hmore
      rw [← hmore, stops_cons]
      exact Bool.eq_false_iff.2 hdigit
  · next hne =>
    refine whole hw hs ?_
    -- A point that nothing follows is no part of the number.
    rintro more hmore e he
    obtain ⟨rest, rfl⟩ := List.head?_eq_some_iff.1 (Option.mem_def.1 he)
    exact absurd hmore (hne e rest)

/-- A quote is the beginning of a string, which the next quote closes if there is one. -/
theorem of_string (text : List Char) : Munched (.string text) := by
  -- The text up to the next quote has none.
  have hnone : '"' ∉ text.takeWhile (· != '"') := by
    intro hmem
    exact absurd (forall_mem_takeWhile (· != '"') text _ hmem) (by decide)
  have happend := List.takeWhile_append_dropWhile (p := (· != '"')) (l := text)
  unfold Munch.string
  split
  · next hd =>
    rw [hd, List.append_nil] at happend
    rw [happend] at hnone
    exact unclosed hnone
  · next quote rest hd =>
    have hs := stops_dropWhile (· != '"') text
    rw [hd] at hs
    have hq : quote = '"' := by simpa using hs quote rfl
    subst hq
    exact closed hnone

/-- An operator takes an equals sign if one follows. -/
theorem of_operator (mark : Operator) (cs : List Char) :
    Munched (.operator mark mark.char cs) := by
  unfold Munch.operator
  split
  · exact joined
  · next hne =>
    refine single ?_
    intro c hc
    obtain ⟨rest, rfl⟩ := List.head?_eq_some_iff.1 (Option.mem_def.1 hc)
    rw [decide_eq_false_iff_not]
    rintro rfl
    exact hne rest rfl

end Munched

/-- What stands at the front of a text is found by the rules. -/
theorem munched_munch (c : Char) (cs : List Char) : Munched (munch c cs) := by
  unfold munch
  split
  · next hl => exact .of_word hl cs
  · next hl =>
    split
    · next hd => exact .of_number hd cs
    · next hd =>
      split
      · exact .of_string cs
      · next hq =>
        split
        · next mark hm =>
          obtain rfl := Delimiter.char_eq_of_ofChar? hm
          exact .delimiter
        · next hm =>
          split
          · next mark ho =>
            obtain rfl := Operator.char_eq_of_ofChar? ho
            exact .of_operator mark cs
          · next ho =>
            refine .unexpected ⟨Bool.eq_false_iff.2 hl, Bool.eq_false_iff.2 hd, hq, ?_, ?_⟩
            · rintro mark rfl
              simp at hm
            · rintro mark rfl
              simp at ho

/-! ### The rules find nothing else -/

namespace Munch

variable {word whole digits text rest : List Char}

/-- A whole word is found where nothing follows that would belong to it. -/
theorem word_append_eq (hw : ∀ c ∈ word, isWordChar c) (hs : Stops isWordChar rest) :
    Munch.word (word ++ rest) = plain (wordKind word) word rest := by
  rw [Munch.word, hs.takeWhile_append hw, hs.dropWhile_append hw]
  rfl

/-- A whole number is found where neither a digit nor a fraction follows. -/
theorem number_append_whole (hd : Literal.isDigits digits) (hs : Stops Char.isDigit rest)
    (hp : ∀ more, rest = '.' :: more → Stops Char.isDigit more) :
    number (digits ++ rest) = plain .number digits rest := by
  have hall := (isDigits_iff.1 hd).2
  rw [number, hs.takeWhile_append hall, hs.dropWhile_append hall]
  split
  · next d more =>
    -- What follows the point is no digit, so the point is no part of the number.
    have hne : d.isDigit = false := stops_cons.1 (hp _ rfl)
    rw [if_neg (by simp [hne])]
  · rfl

/-- A number with a fraction is found where no digit follows. -/
theorem number_append_fraction (hw : Literal.isDigits whole) (hd : Literal.isDigits digits)
    (hs : Stops Char.isDigit rest) :
    number (whole ++ '.' :: digits ++ rest) = plain .number (whole ++ '.' :: digits) rest := by
  have hwhole := (isDigits_iff.1 hw).2
  have hdigits := (isDigits_iff.1 hd).2
  have hpoint : Stops Char.isDigit ('.' :: (digits ++ rest)) := stops_cons.2 rfl
  obtain ⟨d, ds, rfl, hfirst⟩ := exists_cons_of_isDigits hd
  rw [List.append_assoc, List.cons_append, number, hpoint.takeWhile_append hwhole,
    hpoint.dropWhile_append hwhole]
  simp only [List.cons_append, if_pos hfirst]
  rw [← List.cons_append, hs.takeWhile_append hdigits, hs.dropWhile_append hdigits]

/-- A string goes on to the first quote. -/
theorem string_append_closed (ht : '"' ∉ text) :
    string (text ++ '"' :: rest) = plain .string ('"' :: text ++ ['"']) rest := by
  have hs : Stops (· != '"') ('"' :: rest) := stops_cons.2 rfl
  rw [string, hs.takeWhile_append (bne_of_not_mem ht),
    hs.dropWhile_append (bne_of_not_mem ht)]

/-- A string without a second quote is complained about, and takes the whole text. -/
theorem string_of_not_mem (ht : '"' ∉ text) :
    string text = complaint unterminatedString ('"' :: text) [] := by
  have hnil := (stops_nil (· != '"')).dropWhile_append (bne_of_not_mem ht)
  rw [List.append_nil] at hnil
  rw [string, hnil]

/-- An operator stands alone where no equals sign follows. -/
theorem operator_of_stops (mark : Operator) (hs : Stops (· = '=') rest) :
    operator mark mark.char rest = plain (.operator mark false) [mark.char] rest := by
  unfold operator
  split
  · exact absurd (stops_cons.1 hs) (by decide)
  · rfl

end Munch

/-- At a letter the rule for words applies. -/
theorem munch_of_isLetter {c : Char} (h : isLetter c) (cs : List Char) :
    munch c cs = .word (c :: cs) :=
  if_pos h

/-- At a digit the rule for numbers applies. -/
theorem munch_of_isDigit {c : Char} (h : c.isDigit) (cs : List Char) :
    munch c cs = .number (c :: cs) := by
  rw [munch, if_neg (by simp [isLetter_eq_false_of_isDigit h]), if_pos h]

/-- At a quote the rule for strings applies. -/
theorem munch_quote (cs : List Char) : munch '"' cs = .string cs := by
  rw [munch, if_neg (by decide), if_neg (by decide), if_pos rfl]

/-- A delimiter is a token by itself. -/
theorem munch_delimiter (mark : Delimiter) (cs : List Char) :
    munch mark.char cs = .plain (.delimiter mark) [mark.char] cs := by
  cases mark <;> rfl

/-- At an operator the rule for operators applies. -/
theorem munch_operator (mark : Operator) (cs : List Char) :
    munch mark.char cs = .operator mark mark.char cs := by
  cases mark <;> rfl

/-- What the rules find is what stands at the front of the text. -/
theorem Munched.exists_munch_eq {m : Munch} (h : Munched m) :
    ∃ c cs, m.span ++ m.rest = c :: cs ∧ munch c cs = m := by
  cases h with
  | @word c cs rest hc hcs hs =>
    have hall : ∀ d ∈ c :: cs, isWordChar d := by
      rw [List.forall_mem_cons]
      exact ⟨by simp [isWordChar, hc], hcs⟩
    refine ⟨c, cs ++ rest, rfl, ?_⟩
    rw [munch_of_isLetter hc, ← List.cons_append, Munch.word_append_eq hall hs]
  | whole hd hs hp =>
    obtain ⟨c, cs, rfl, hc⟩ := exists_cons_of_isDigits hd
    exact ⟨c, _, rfl, (munch_of_isDigit hc _).trans (Munch.number_append_whole hd hs hp)⟩
  | fraction hw hd hs =>
    obtain ⟨c, cs, rfl, hc⟩ := exists_cons_of_isDigits hw
    exact ⟨c, _, rfl, (munch_of_isDigit hc _).trans (Munch.number_append_fraction hw hd hs)⟩
  | @closed text rest ht =>
    refine ⟨'"', text ++ '"' :: rest, ?_, (munch_quote _).trans (Munch.string_append_closed ht)⟩
    simp only [Munch.plain_span, Munch.plain_rest, List.append_assoc, List.cons_append,
      List.nil_append]
  | @unclosed text ht =>
    exact ⟨'"', text, List.append_nil _, (munch_quote text).trans (Munch.string_of_not_mem ht)⟩
  | @delimiter mark rest => exact ⟨mark.char, rest, rfl, munch_delimiter mark rest⟩
  | @single mark rest hs =>
    exact ⟨mark.char, rest, rfl, (munch_operator mark rest).trans (Munch.operator_of_stops mark hs)⟩
  | @joined mark rest => exact ⟨mark.char, '=' :: rest, rfl, munch_operator mark _⟩
  | @unexpected c rest hc =>
    refine ⟨c, rest, rfl, ?_⟩
    simp [munch, hc.letter, hc.digit, hc.quote, hc.ofChar?_delimiter, hc.ofChar?_operator]

end Abacus
