import Abacus.Decimal.Literal
import Abacus.Token.Scan

namespace Abacus

/-!
# Numerals

* `IsNumeral` — the texts that stand for numbers: digits, optionally with a point and more digits.
* `IsNumeral.exists_read?` — every numeral can be read.
* `isNumeral_of_mem_scan` — the lexeme of every number that is scanned is a numeral.
* `Readable ts` — every number among the tokens `ts` can be read, as in every scan.
-/

/-- A text is a row of digits, or two of them with a point in between. -/
def IsNumeral (text : List Char) : Prop :=
  Literal.isDigits text ∨
    ∃ whole fraction, Literal.isDigits whole ∧ Literal.isDigits fraction ∧
      text = whole ++ '.' :: fraction

/-- A row of digits is not empty and has nothing but digits. -/
theorem isDigits_iff {text : List Char} :
    Literal.isDigits text = true ↔ text ≠ [] ∧ ∀ c ∈ text, c.isDigit = true := by
  simp [Literal.isDigits]

/-- A row of digits begins with a digit. -/
theorem exists_cons_of_isDigits {w : List Char} (h : Literal.isDigits w) :
    ∃ c cs, w = c :: cs ∧ c.isDigit = true := by
  obtain ⟨hne, hall⟩ := isDigits_iff.1 h
  obtain ⟨c, cs, rfl⟩ := List.exists_cons_of_ne_nil hne
  exact ⟨c, cs, rfl, hall c List.mem_cons_self⟩

/-- So does every numeral. -/
theorem IsNumeral.exists_cons {text : List Char} (h : IsNumeral text) :
    ∃ c cs, text = c :: cs ∧ c.isDigit = true := by
  rcases h with hd | ⟨whole, fraction, hw, -, rfl⟩
  · exact exists_cons_of_isDigits hd
  · obtain ⟨c, cs, rfl, hc⟩ := exists_cons_of_isDigits hw
    exact ⟨c, cs ++ '.' :: fraction, rfl, hc⟩

/-- No digit is a point. -/
theorem ne_point_of_isDigits {digits : List Char} (h : Literal.isDigits digits) :
    ∀ c ∈ digits, (c != '.') = true := by
  intro c hc
  have hd := (isDigits_iff.1 h).2 c hc
  rw [bne_iff_ne]
  rintro rfl
  exact absurd hd (by decide)

/-- Texts are split alike at the first character that is not of a class. -/
theorem append_cons_inj {p : Char → Bool} {xs ys as bs : List Char} {d e : Char}
    (hxs : ∀ c ∈ xs, p c) (hys : ∀ c ∈ ys, p c) (hd : p d = false) (he : p e = false)
    (h : xs ++ d :: as = ys ++ e :: bs) : xs = ys ∧ d = e ∧ as = bs := by
  have htake := congrArg (List.takeWhile p) h
  rw [List.takeWhile_append_of_pos hxs, List.takeWhile_append_of_pos hys,
    List.takeWhile_cons_of_neg (by simp [hd]), List.takeWhile_cons_of_neg (by simp [he]),
    List.append_nil, List.append_nil] at htake
  rw [htake, List.append_cancel_left_eq] at h
  exact ⟨htake, List.cons.inj h⟩

/-- Every numeral can be read. -/
theorem IsNumeral.exists_read? {text : String} (h : IsNumeral text.toList) :
    ∃ x, Literal.read? text = some x := by
  unfold Literal.read?
  rcases h with h | ⟨whole, fraction, hw, hf, ht⟩
  · have hne := ne_point_of_isDigits h
    have htake := @List.takeWhile_append_of_pos _ _ _ [] hne
    have hdrop := @List.dropWhile_append_of_pos _ _ _ [] hne
    rw [List.append_nil] at htake hdrop
    simp [htake, hdrop, h]
  · have hne := ne_point_of_isDigits hw
    simp [ht, List.takeWhile_append_of_pos hne, List.dropWhile_append_of_pos hne, hw, hf]

/-- From a digit on, the digits at the front of a text are a row. -/
theorem isDigits_takeWhile {c : Char} (h : c.isDigit) (cs : List Char) :
    Literal.isDigits ((c :: cs).takeWhile Char.isDigit) := by
  rw [Literal.isDigits, List.all_takeWhile, Bool.and_true, List.takeWhile_cons_of_pos h]
  rfl

namespace Munch

/-- What the rule for numbers finds is a numeral. -/
theorem isNumeral_number {c : Char} (h : c.isDigit) (cs : List Char) :
    IsNumeral (number (c :: cs)).span := by
  have hw := isDigits_takeWhile h cs
  unfold number
  split
  · next d rest _ =>
    split
    · next hd => exact .inr ⟨_, _, hw, isDigits_takeWhile hd rest, rfl⟩
    · exact .inl hw
  · exact .inl hw

/-- The rule for words finds names and reserved words only. -/
theorem word_kind (text : List Char) :
    (word text).kind = .identifier ∨ ∃ k, (word text).kind = .keyword k := by
  show Option.getD _ _ = _ ∨ ∃ k, Option.getD _ _ = _
  cases Keyword.ofWord? (String.ofList (text.takeWhile isWordChar)) with
  | none => exact .inl rfl
  | some k => exact .inr ⟨k, rfl⟩

/-- The rule for numbers finds numbers only. -/
theorem number_eq (text : List Char) :
    ∃ span rest, number text = plain .number span rest := by
  unfold number
  split
  · split <;> exact ⟨_, _, rfl⟩
  · exact ⟨_, _, rfl⟩

/-- The rule for strings finds strings, or has a complaint. -/
theorem string_kind (text : List Char) :
    (string text).kind = .error ∨ (string text).kind = .string := by
  unfold string
  split
  · exact .inl rfl
  · exact .inr rfl

/-- The rule for operators finds the operator, with or without an equals sign. -/
theorem operator_kind (mark : Operator) (c : Char) (cs : List Char) :
    ∃ joined, (operator mark c cs).kind = .operator mark joined := by
  unfold operator
  split
  · exact ⟨true, rfl⟩
  · exact ⟨false, rfl⟩

end Munch

/-- What stands at the front of a text is never the end of it, and it is a number only if its
    lexeme is a numeral. -/
theorem munch_kind (c : Char) (cs : List Char) :
    (munch c cs).kind ≠ .eof ∧
      ((munch c cs).kind = .number → IsNumeral (munch c cs).lexeme.toList) := by
  unfold munch
  split
  · rcases Munch.word_kind (c :: cs) with hk | ⟨k, hk⟩ <;> simp [hk]
  · split
    · next hd =>
      -- Here, and only here, a number stands.
      have hn := Munch.isNumeral_number hd cs
      obtain ⟨span, rest, he⟩ := Munch.number_eq (c :: cs)
      rw [he] at hn ⊢
      refine ⟨by simp [Munch.plain], fun _ => ?_⟩
      rw [Munch.plain, String.toList_ofList]
      exact hn
    · split
      · rcases Munch.string_kind cs with hk | hk <;> simp [hk]
      · split
        · simp [Munch.plain]
        · split
          · next mark _ =>
            obtain ⟨joined, hk⟩ := Munch.operator_kind mark c cs
            simp [hk]
          · simp [Munch.complaint]

/-- Every token before the end of a text is one that stood at the front of some text. -/
theorem Cursor.exists_munch_of_mem_scan {t : Token} (c : Cursor) (h : t ∈ c.scan.body) :
    ∃ ch cs, t.kind = (munch ch cs).kind ∧ t.lexeme = (munch ch cs).lexeme := by
  fun_induction Cursor.scan c with
  | case1 c hne hlt ih =>
    rcases List.mem_cons.1 h with rfl | h
    -- The token in front is no end, so there is a character to begin with.
    · unfold token at hne ⊢
      split at hne
      · exact absurd rfl hne
      · next ch cs _ => exact ⟨ch, cs, rfl, rfl⟩
    · exact ih h
  | case2 c _ => cases h

/-- No token of a source text stands for its end. -/
theorem kind_ne_eof_of_mem_scan {source : String} {t : Token} (h : t ∈ (scan source).body) :
    t.kind ≠ .eof := by
  obtain ⟨ch, cs, hk, -⟩ := Cursor.exists_munch_of_mem_scan _ h
  rw [hk]
  exact (munch_kind ch cs).1

/-- The lexeme of every number that is scanned is a numeral. -/
theorem isNumeral_of_mem_scan {source : String} {t : Token} (h : t ∈ (scan source).body)
    (hk : t.kind = .number) : IsNumeral t.lexeme.toList := by
  obtain ⟨ch, cs, hk', hl⟩ := Cursor.exists_munch_of_mem_scan _ h
  rw [hl]
  exact (munch_kind ch cs).2 (hk' ▸ hk)

/-- Every number among some tokens can be read. -/
def Readable (ts : List Token) : Prop :=
  ∀ t ∈ ts, t.kind = .number → ∃ x, Literal.read? t.lexeme = some x

/-- Some of the tokens are as readable as all. -/
theorem Readable.subset {ts us : List Token} (h : Readable us) (hsub : ts ⊆ us) : Readable ts :=
  fun t ht => h t (hsub ht)

/-- Every number of a source text can be read. -/
theorem readable_scan (source : String) : Readable (scan source).body :=
  fun _ ht hk => (isNumeral_of_mem_scan ht hk).exists_read?

end Abacus
