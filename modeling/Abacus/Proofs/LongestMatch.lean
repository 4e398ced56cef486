import Mathlib.Computability.Language
import Abacus.Proofs.Gap
import Abacus.Proofs.Munching

namespace Abacus

open Computability

/-!
# The longest match of the token grammar

* `Delimiter.glyph`, `Operator.glyph`, `Keyword.spelling` — the characters and the reserved words
  of the token grammar, written out; `Delimiter.char_eq_glyph`, `Operator.char_eq_glyph` and
  `Keyword.word_eq_spelling` — the scanner's own tables agree with them.
* `Pattern.language` — the words of each pattern of the token grammar, as a regular language.
* `Pattern.Classifies` — the kind that a pattern gives to a word.
* `LongestMatch text word` — no word of the grammar at the front of `text` is longer than `word`.
* `FrontToken text t rest` — `t` is the token that the grammar tells at the front of `text`.
* `Scanner.followsGrammar_afterTokens` — wherever a scanner has come to, it gives the token that the
  grammar tells behind the longest gap.
-/

/-! ### The token grammar -/

/-- The one-character words of a class. -/
def oneOf (p : Char → Prop) : Language Char := {w | ∃ c, p c ∧ w = [c]}

/-- The letters and the underscore. -/
def letter : Language Char := oneOf fun c => 'A' ≤ c ∧ c ≤ 'Z' ∨ 'a' ≤ c ∧ c ≤ 'z' ∨ c = '_'

/-- The decimal digits. -/
def digit : Language Char := oneOf fun c => '0' ≤ c ∧ c ≤ '9'

/-- Rows of digits. -/
def digits : Language Char := digit * digit∗

/-- The delimiters of the grammar. -/
def Delimiter.glyph : Delimiter → Char
  | leftParen => '('
  | rightParen => ')'
  | leftBrace => '\x7b'
  | rightBrace => '\x7d'
  | comma => ','
  | dot => '.'
  | semicolon => ';'

/-- The operators of the grammar, without an equals sign. -/
def Operator.glyph : Operator → Char
  | plus => '+'
  | minus => '-'
  | star => '*'
  | slash => '/'
  | bang => '!'
  | equal => '='
  | less => '<'
  | greater => '>'

/-- The reserved words of the grammar. -/
def Keyword.spelling : Keyword → String
  | kwAnd => "and"
  | kwClass => "class"
  | kwElse => "else"
  | kwFalse => "false"
  | kwFor => "for"
  | kwFun => "fun"
  | kwIf => "if"
  | kwLet => "let"
  | kwNil => "nil"
  | kwOr => "or"
  | kwPrint => "print"
  | kwReturn => "return"
  | kwSuper => "super"
  | kwThis => "this"
  | kwTrue => "true"
  | kwWhile => "while"

/-- What a token can be, before reserved words are told from names. -/
inductive Pattern where
  | identifier
  | number
  | string
  | delimiter (mark : Delimiter)
  /-- An operator, with or without an equals sign. -/
  | operator (mark : Operator)

namespace Pattern

/-- The words of a pattern. -/
def language : Pattern → Language Char
  | identifier => letter * (letter + digit)∗
  | number => digits * (1 + oneOf (· = '.') * digits)
  | string => oneOf (· = '"') * (oneOf (· ≠ '"'))∗ * oneOf (· = '"')
  | delimiter mark => oneOf (· = mark.glyph)
  | operator mark => oneOf (· = mark.glyph) * (1 + oneOf (· = '='))

/-- The kind that a pattern gives to a word. Reserved words have kinds of their own. -/
inductive Classifies : Pattern → (word : List Char) → Kind → Prop where
  | reserved {k : Keyword} : Classifies .identifier k.spelling.toList (.keyword k)
  | name {word : List Char} :
      (∀ k : Keyword, word ≠ k.spelling.toList) → Classifies .identifier word .identifier
  | number {word : List Char} : Classifies .number word .number
  | string {word : List Char} : Classifies .string word .string
  | delimiter {mark : Delimiter} : Classifies (.delimiter mark) [mark.glyph] (.delimiter mark)
  | single {mark : Operator} : Classifies (.operator mark) [mark.glyph] (.operator mark false)
  | joined {mark : Operator} : Classifies (.operator mark) [mark.glyph, '='] (.operator mark true)

end Pattern

/-- A word of the grammar stands at the front of a text. -/
structure Match (text word : List Char) : Prop where
  ne_nil : word ≠ []
  front : word <+: text
  exists_pattern : ∃ p : Pattern, word ∈ p.language

/-- A word of the grammar stands at the front of a text, and no longer one. -/
structure LongestMatch (text word : List Char) : Prop extends Match text word where
  longest : ∀ v, Match text v → v.length ≤ word.length

/-- The token that the grammar tells at the front of a text, and what is left behind it. -/
inductive FrontToken : (text : List Char) → Token → (rest : List Char) → Prop where
  | eof {t : Token} : t.kind = .eof → t.lexeme = "" → FrontToken [] t []
  | found {t : Token} {word rest : List Char} :
      LongestMatch (word ++ rest) word → t.lexeme = String.ofList word →
        (∀ p : Pattern, word ∈ p.language → p.Classifies word t.kind) →
          FrontToken (word ++ rest) t rest
  | unterminated {t : Token} {text : List Char} :
      (∀ word, ¬ Match ('"' :: text) word) → t.kind = .error → t.lexeme = "Unterminated string." →
        FrontToken ('"' :: text) t []
  | unexpected {t : Token} {c : Char} {rest : List Char} :
      (∀ word, ¬ Match (c :: rest) word) → c ≠ '"' → t.kind = .error →
        t.lexeme = "Unexpected character." → FrontToken (c :: rest) t rest

/-! ### The tables of the scanner -/

/-- The scanner knows the delimiters of the grammar. -/
theorem Delimiter.char_eq_glyph (mark : Delimiter) : mark.char = mark.glyph := by
  cases mark <;> rfl

/-- The scanner knows the operators of the grammar. -/
theorem Operator.char_eq_glyph (mark : Operator) : mark.char = mark.glyph := by
  cases mark <;> rfl

/-- The scanner knows the reserved words of the grammar. -/
theorem Keyword.word_eq_spelling (k : Keyword) : k.word = k.spelling := by
  cases k <;> rfl

/-! ### The words of each pattern -/

section Words

variable {p q : Char → Prop} {w : List Char}

theorem mem_oneOf : w ∈ oneOf p ↔ ∃ c, p c ∧ w = [c] := Iff.rfl

/-- A choice between two classes is a class. -/
theorem oneOf_add : oneOf p + oneOf q = oneOf fun c => p c ∨ q c := by
  ext w
  simp only [Language.mem_add, mem_oneOf]
  constructor
  · rintro (⟨c, hc, rfl⟩ | ⟨c, hc, rfl⟩)
    · exact ⟨c, .inl hc, rfl⟩
    · exact ⟨c, .inr hc, rfl⟩
  · rintro ⟨c, hc | hc, rfl⟩
    · exact .inl ⟨c, hc, rfl⟩
    · exact .inr ⟨c, hc, rfl⟩

/-- Repeating a class gives the rows of its characters. -/
theorem mem_kstar_oneOf : w ∈ (oneOf p)∗ ↔ ∀ c ∈ w, p c := by
  rw [Language.mem_kstar]
  constructor
  · rintro ⟨words, rfl, hwords⟩ c hc
    obtain ⟨word, hword, hc⟩ := List.mem_flatten.1 hc
    obtain ⟨d, hd, rfl⟩ := hwords word hword
    rwa [List.mem_singleton.1 hc]
  · intro h
    refine ⟨w.map fun c => [c], (List.flatMap_singleton' w).symm, ?_⟩
    intro word hword
    obtain ⟨c, hc, rfl⟩ := List.mem_map.1 hword
    exact ⟨c, h c hc, rfl⟩

end Words

/-- The rows of digits of the grammar are those of literals. -/
theorem mem_digits {w : List Char} : w ∈ digits ↔ Literal.isDigits w := by
  simp only [digits, digit, Language.mem_mul, mem_oneOf, mem_kstar_oneOf, ← isDigit_iff,
    isDigits_iff]
  constructor
  · rintro ⟨_, ⟨c, hc, rfl⟩, cs, hcs, rfl⟩
    exact ⟨List.cons_ne_nil c cs, List.forall_mem_cons.2 ⟨hc, hcs⟩⟩
  · rintro ⟨hne, hall⟩
    obtain ⟨c, cs, rfl⟩ := List.exists_cons_of_ne_nil hne
    obtain ⟨hc, hcs⟩ := List.forall_mem_cons.1 hall
    exact ⟨[c], ⟨c, hc, rfl⟩, cs, hcs, rfl⟩

namespace Pattern

variable {w : List Char}

/-- The names and reserved words are a letter and then letters and digits. -/
theorem mem_identifier :
    w ∈ identifier.language ↔ ∃ c cs, isLetter c ∧ (∀ d ∈ cs, isWordChar d) ∧ w = c :: cs := by
  have hword : letter + digit = oneOf fun c => isWordChar c = true := by
    rw [letter, digit, oneOf_add]
    simp only [isWordChar, Bool.or_eq_true, isLetter_iff, isDigit_iff]
  rw [language, hword, letter]
  simp only [Language.mem_mul, mem_oneOf, mem_kstar_oneOf, ← isLetter_iff]
  constructor
  · rintro ⟨_, ⟨c, hc, rfl⟩, cs, hcs, rfl⟩
    exact ⟨c, cs, hc, hcs, rfl⟩
  · rintro ⟨c, cs, hc, hcs, rfl⟩
    exact ⟨[c], ⟨c, hc, rfl⟩, cs, hcs, rfl⟩

/-- The numbers of the grammar are the numerals. -/
theorem mem_number : w ∈ number.language ↔ IsNumeral w := by
  simp only [language, Language.mem_mul, mem_digits, Language.mem_add, Language.mem_one, mem_oneOf,
    IsNumeral]
  constructor
  · rintro ⟨whole, hw, _, rfl | ⟨_, ⟨_, rfl, rfl⟩, fraction, hf, rfl⟩, rfl⟩
    · rw [List.append_nil]
      exact .inl hw
    · exact .inr ⟨whole, fraction, hw, hf, rfl⟩
  · rintro (h | ⟨whole, fraction, hw, hf, rfl⟩)
    · exact ⟨w, h, [], .inl rfl, List.append_nil w⟩
    · exact ⟨whole, hw, _, .inr ⟨['.'], ⟨'.', rfl, rfl⟩, fraction, hf, rfl⟩, rfl⟩

/-- The strings of the grammar have quotes around them and none inside. -/
theorem mem_string :
    w ∈ string.language ↔ ∃ text, '"' ∉ text ∧ w = '"' :: text ++ ['"'] := by
  simp only [language, Language.mem_mul, mem_kstar_oneOf, mem_oneOf, ne_eq, List.forall_mem_ne']
  constructor
  · rintro ⟨_, ⟨_, ⟨_, rfl, rfl⟩, text, ht, rfl⟩, _, ⟨_, rfl, rfl⟩, rfl⟩
    exact ⟨text, ht, rfl⟩
  · rintro ⟨text, ht, rfl⟩
    exact ⟨'"' :: text, ⟨['"'], ⟨'"', rfl, rfl⟩, text, ht, rfl⟩, ['"'], ⟨'"', rfl, rfl⟩, rfl⟩

/-- The only word of a delimiter is its character. -/
theorem mem_delimiter {mark : Delimiter} : w ∈ (delimiter mark).language ↔ w = [mark.char] := by
  simp [language, mem_oneOf, mark.char_eq_glyph]

/-- The words of an operator are its character, and this with an equals sign. -/
theorem mem_operator {mark : Operator} :
    w ∈ (operator mark).language ↔ w = [mark.char] ∨ w = [mark.char, '='] := by
  simp only [language, Language.mem_mul, Language.mem_add, Language.mem_one, mem_oneOf,
    ← mark.char_eq_glyph]
  constructor
  · rintro ⟨_, ⟨_, rfl, rfl⟩, _, rfl | ⟨_, rfl, rfl⟩, rfl⟩
    · exact .inl rfl
    · exact .inr rfl
  · rintro (rfl | rfl)
    · exact ⟨[mark.char], ⟨_, rfl, rfl⟩, [], .inl rfl, rfl⟩
    · exact ⟨[mark.char], ⟨_, rfl, rfl⟩, ['='], .inr ⟨_, rfl, rfl⟩, rfl⟩

/-! ### Patterns are told apart by their first characters -/

/-- The pattern of the words that begin with a character. -/
def beginningWith? (c : Char) : Option Pattern :=
  if isLetter c then some identifier
  else if c.isDigit then some number
  else if c = '"' then some string
  else match Delimiter.ofChar? c with
    | some mark => some (delimiter mark)
    | none => (Operator.ofChar? c).map operator

/-- Words that begin with a digit are numbers. -/
theorem beginningWith?_of_isDigit {c : Char} (h : c.isDigit = true) :
    beginningWith? c = some number := by
  simp [beginningWith?, isLetter_eq_false_of_isDigit h, h]

/-- No word of the grammar is empty, and its first character tells its pattern. -/
theorem exists_cons_of_mem {p : Pattern} (h : w ∈ p.language) :
    ∃ c cs, w = c :: cs ∧ beginningWith? c = some p := by
  cases p with
  | identifier =>
    obtain ⟨c, cs, hc, -, rfl⟩ := mem_identifier.1 h
    exact ⟨c, cs, rfl, if_pos hc⟩
  | number =>
    obtain ⟨c, cs, rfl, hc⟩ := (mem_number.1 h).exists_cons
    exact ⟨c, cs, rfl, beginningWith?_of_isDigit hc⟩
  | string =>
    obtain ⟨text, -, rfl⟩ := mem_string.1 h
    exact ⟨'"', _, rfl, rfl⟩
  | delimiter mark =>
    refine ⟨mark.char, [], mem_delimiter.1 h, ?_⟩
    cases mark <;> rfl
  | operator mark =>
    have hbegin : beginningWith? mark.char = some (operator mark) := by cases mark <;> rfl
    rcases mem_operator.1 h with rfl | rfl
    · exact ⟨mark.char, [], rfl, hbegin⟩
    · exact ⟨mark.char, ['='], rfl, hbegin⟩

/-- The first character of a word tells the pattern of the word. -/
theorem beginningWith?_of_mem {p : Pattern} {c : Char} {cs : List Char}
    (h : c :: cs ∈ p.language) : beginningWith? c = some p := by
  obtain ⟨d, ds, heq, hd⟩ := exists_cons_of_mem h
  injection heq with hcd _
  rwa [hcd]

/-- No word of the grammar begins with a character that begins no token. -/
theorem beginningWith?_of_beginsNoToken {c : Char} (h : BeginsNoToken c) :
    beginningWith? c = none := by
  simp [beginningWith?, h.letter, h.digit, h.quote, h.ofChar?_delimiter, h.ofChar?_operator]

/-- Words that begin with the same character have the same pattern. -/
theorem eq_of_mem {p q : Pattern} {c : Char} {cs ds : List Char} (hp : c :: cs ∈ p.language)
    (hq : c :: ds ∈ q.language) : q = p := by
  have h := beginningWith?_of_mem hq
  rw [beginningWith?_of_mem hp] at h
  exact (Option.some.inj h).symm

end Pattern

/-- A word at the front of a text begins with the same character. -/
theorem Match.exists_cons {c : Char} {text word : List Char} (h : Match (c :: text) word) :
    ∃ (p : Pattern) (cs : List Char), c :: cs ∈ p.language ∧ cs <+: text := by
  obtain ⟨-, ⟨more, hmore⟩, p, hmem⟩ := h
  obtain ⟨d, ds, rfl, -⟩ := Pattern.exists_cons_of_mem hmem
  injection hmore with hd hmore
  rw [hd] at hmem
  exact ⟨p, ds, hmem, more, hmore⟩

/-! ### Words that go no further -/

/-- A beginning of a text is no longer than another one, or goes on behind it. -/
theorem length_le_or_exists_of_append {v w more rest : List Char} (h : v ++ more = w ++ rest) :
    v.length ≤ w.length ∨ ∃ d ds, v = w ++ d :: ds ∧ rest = d :: (ds ++ more) := by
  rcases List.append_eq_append_iff.1 h with ⟨t, rfl, -⟩ | ⟨t, rfl, ht⟩
  · exact .inl (by simp)
  · cases t with
    | nil => exact .inl (by simp)
    | cons d ds => exact .inr ⟨d, ds, rfl, ht⟩

/-- A word that what follows it does not prolong within its pattern is the token. -/
theorem FrontToken.of_mem {p : Pattern} {word rest : List Char} {kind : Kind}
    (hmem : word ∈ p.language) (hkind : p.Classifies word kind)
    (hmax : ∀ d ds more, rest = d :: (ds ++ more) → word ++ d :: ds ∉ p.language)
    (position : Position) :
    FrontToken (word ++ rest) ⟨kind, String.ofList word, position⟩ rest := by
  obtain ⟨c, cs, rfl, -⟩ := Pattern.exists_cons_of_mem hmem
  refine .found ⟨⟨List.cons_ne_nil c cs, List.prefix_append _ rest, p, hmem⟩, ?_⟩ rfl ?_
  · rintro v ⟨-, ⟨more, hmore⟩, q, hq⟩
    obtain ⟨d, ds, rfl, -⟩ := Pattern.exists_cons_of_mem hq
    -- The two words begin with the same character, so they have the same pattern.
    obtain rfl : d = c := (List.cons.inj hmore).1
    obtain rfl := Pattern.eq_of_mem hmem hq
    rcases length_le_or_exists_of_append hmore with hle | ⟨e, es, hv, hrest⟩
    · exact hle
    · rw [hv] at hq
      exact absurd hq (hmax e es more hrest)
  · intro q hq
    obtain rfl := Pattern.eq_of_mem hmem hq
    exact hkind

namespace FrontToken

variable {rest : List Char} (position : Position)

/-- Where no letter or digit goes on, the longest match is the whole word. -/
theorem word {c : Char} {cs : List Char} (hc : isLetter c) (hcs : ∀ d ∈ cs, isWordChar d)
    (hstop : Stops isWordChar rest) :
    FrontToken (c :: cs ++ rest) ⟨wordKind (c :: cs), String.ofList (c :: cs), position⟩ rest := by
  refine .of_mem (p := .identifier) (Pattern.mem_identifier.2 ⟨c, cs, hc, hcs, rfl⟩) ?_ ?_ position
  · rcases wordKind_cases (c :: cs) with ⟨k, hk, hkind⟩ | ⟨hk, hkind⟩
    · rw [hkind, ← String.toList_ofList (l := c :: cs), hk, k.word_eq_spelling]
      exact .reserved
    · rw [hkind]
      refine .name ?_
      rintro k hw
      exact hk k (by rw [hw, String.ofList_toList, k.word_eq_spelling])
  · rintro d ds more rfl hlonger
    obtain ⟨_, _, -, hds, heq⟩ := Pattern.mem_identifier.1 hlonger
    have hd : isWordChar d = true := hds d (by simp [← (List.cons.inj heq).2])
    rw [hstop d rfl] at hd
    cases hd

/-- Where neither a digit nor a fraction follows, the longest match is the whole number. -/
theorem whole {digits : List Char} (hdigits : Literal.isDigits digits)
    (hstop : Stops Char.isDigit rest)
    (hpoint : ∀ more, rest = '.' :: more → Stops Char.isDigit more) :
    FrontToken (digits ++ rest) ⟨.number, String.ofList digits, position⟩ rest := by
  refine .of_mem (Pattern.mem_number.2 (.inl hdigits)) .number ?_ position
  rintro d ds more rfl hlonger
  have hd : d.isDigit = false := hstop d rfl
  rcases Pattern.mem_number.1 hlonger with hw | ⟨whole, fraction, hw, hf, heq⟩
  · rw [(isDigits_iff.1 hw).2 d (by simp)] at hd
    cases hd
  · obtain ⟨-, rfl, rfl⟩ :=
      append_cons_inj (isDigits_iff.1 hdigits).2 (isDigits_iff.1 hw).2 hd (by decide) heq
    obtain ⟨e, es, rfl, he⟩ := exists_cons_of_isDigits hf
    rw [hpoint _ rfl e rfl] at he
    cases he

/-- Where no digit follows, the longest match is the number with its fraction. -/
theorem fraction {whole digits : List Char} (hwhole : Literal.isDigits whole)
    (hdigits : Literal.isDigits digits) (hstop : Stops Char.isDigit rest) :
    FrontToken (whole ++ '.' :: digits ++ rest)
      ⟨.number, String.ofList (whole ++ '.' :: digits), position⟩ rest := by
  have hmem := Pattern.mem_number.2 (.inr ⟨whole, digits, hwhole, hdigits, rfl⟩)
  refine .of_mem hmem .number ?_ position
  rintro d ds more rfl hlonger
  have hd : d.isDigit = false := hstop d rfl
  rcases Pattern.mem_number.1 hlonger with hw | ⟨whole', fraction, hw, hf, heq⟩
  · exact absurd ((isDigits_iff.1 hw).2 '.' (by simp)) (by decide)
  · rw [List.append_assoc, List.cons_append] at heq
    obtain ⟨-, -, rfl⟩ := append_cons_inj (isDigits_iff.1 hwhole).2 (isDigits_iff.1 hw).2
      (by decide) (by decide) heq
    rw [(isDigits_iff.1 hf).2 d (by simp)] at hd
    cases hd

/-- Up to its second quote, a string is the longest match. -/
theorem closed {text : List Char} (htext : '"' ∉ text) :
    FrontToken ('"' :: text ++ ['"'] ++ rest)
      ⟨.string, String.ofList ('"' :: text ++ ['"']), position⟩ rest := by
  refine .of_mem (Pattern.mem_string.2 ⟨text, htext, rfl⟩) .string ?_ position
  rintro d ds more rfl hlonger
  obtain ⟨text', htext', heq⟩ := Pattern.mem_string.1 hlonger
  have hsplit : text ++ '"' :: d :: ds = text' ++ '"' :: [] := by simpa using heq
  have hnone {cs : List Char} (h : '"' ∉ cs) : ∀ c ∈ cs, (c != '"') = true := by
    simpa using List.forall_mem_ne'.2 h
  -- Both words end at the first quote behind the opening one.
  obtain ⟨-, -, hnil⟩ :=
    append_cons_inj (hnone htext) (hnone htext') (by decide) (by decide) hsplit
  cases hnil

/-- A delimiter is the longest match, whatever follows. -/
theorem delimiter {mark : Delimiter} :
    FrontToken ([mark.char] ++ rest) ⟨.delimiter mark, String.ofList [mark.char], position⟩
      rest := by
  refine .of_mem (Pattern.mem_delimiter.2 rfl) (mark.char_eq_glyph ▸ .delimiter) ?_ position
  rintro d ds more rfl hlonger
  simpa using Pattern.mem_delimiter.1 hlonger

/-- Where no equals sign follows, the longest match is the operator alone. -/
theorem single {mark : Operator} (hstop : Stops (· = '=') rest) :
    FrontToken ([mark.char] ++ rest) ⟨.operator mark false, String.ofList [mark.char], position⟩
      rest := by
  refine .of_mem (Pattern.mem_operator.2 (.inl rfl)) (mark.char_eq_glyph ▸ .single) ?_ position
  rintro d ds more rfl hlonger
  have hd : d ≠ '=' := by simpa using hstop d rfl
  simpa [hd] using Pattern.mem_operator.1 hlonger

/-- Where one follows, it belongs to the match. -/
theorem joined {mark : Operator} :
    FrontToken ([mark.char, '='] ++ rest)
      ⟨.operator mark true, String.ofList [mark.char, '='], position⟩ rest := by
  refine .of_mem (Pattern.mem_operator.2 (.inr rfl)) (mark.char_eq_glyph ▸ .joined) ?_ position
  rintro d ds more rfl hlonger
  simpa using Pattern.mem_operator.1 hlonger

/-- A quote that no other follows is no match. -/
theorem unclosed {text : List Char} (htext : '"' ∉ text) :
    FrontToken ('"' :: text) ⟨.error, unterminatedString, position⟩ [] := by
  refine .unterminated ?_ rfl rfl
  intro word h
  obtain ⟨p, cs, hmem, more, hmore⟩ := h.exists_cons
  obtain rfl : p = .string := Option.some.inj (Pattern.beginningWith?_of_mem hmem).symm
  obtain ⟨text', -, heq⟩ := Pattern.mem_string.1 hmem
  have hcs : cs = text' ++ ['"'] := (List.cons.inj heq).2
  exact htext (by simp [← hmore, hcs])

/-- A character that begins no token is no match, and it alone is passed over. -/
theorem of_beginsNoToken {c : Char} (hc : BeginsNoToken c) :
    FrontToken (c :: rest) ⟨.error, unexpectedCharacter, position⟩ rest := by
  refine .unexpected ?_ hc.quote rfl rfl
  intro word h
  obtain ⟨p, cs, hmem, -⟩ := h.exists_cons
  have hp := Pattern.beginningWith?_of_mem hmem
  rw [Pattern.beginningWith?_of_beginsNoToken hc] at hp
  cases hp

end FrontToken

/-- What stands at the front of a text is the token that the grammar tells. -/
theorem frontToken_munch (c : Char) (cs : List Char) (position : Position) :
    FrontToken (c :: cs) ⟨(munch c cs).kind, (munch c cs).lexeme, position⟩ (munch c cs).rest := by
  have happend := munch_append c cs
  have hm := munched_munch c cs
  rw [← happend]
  generalize munch c cs = m at hm
  cases hm with
  | word hc hcs hstop => exact .word position hc hcs hstop
  | whole hdigits hstop hpoint => exact .whole position hdigits hstop hpoint
  | fraction hwhole hdigits hstop => exact .fraction position hwhole hdigits hstop
  | closed htext => exact .closed position htext
  | unclosed htext =>
    rw [Munch.complaint_span, Munch.complaint_rest, List.append_nil]
    exact .unclosed position htext
  | delimiter => exact .delimiter position
  | single hstop => exact .single position hstop
  | joined => exact .joined position
  | unexpected hc => exact .of_beginsNoToken position hc

/-! ### Every token of a source -/

namespace Cursor

/-- Behind the gap at a cursor stands the token that the grammar tells. -/
theorem frontToken_token (c : Cursor) : FrontToken c.skipGap.text c.token.1 c.token.2.text := by
  cases hs : c.skipGap.text with
  | nil =>
    rw [token_of_nil hs, hs]
    exact .eof rfl rfl
  | cons ch cs =>
    rw [token_of_cons hs]
    exact frontToken_munch ch cs _

/-- What is left behind a token ends the text before it. -/
theorem token_text_suffix (c : Cursor) : c.token.2.text <:+ c.text := by
  have hgap : c.skipGap.text <:+ c.text := ⟨c.gap, c.longestGap_skipGap.append⟩
  cases hs : c.skipGap.text with
  | nil =>
    rw [token_of_nil hs]
    exact hgap
  | cons ch cs =>
    rw [token_of_cons hs]
    rw [hs, ← munch_append ch cs] at hgap
    exact (List.suffix_append _ _).trans hgap

end Cursor

namespace Scanner

/-- A scanner from which some tokens have been taken. -/
def afterTokens (s : Scanner) : Nat → Scanner
  | 0 => s
  | n + 1 => (s.afterTokens n).scanToken.2

/-- What is left when tokens have been taken is an end of the text. -/
theorem afterTokens_text_suffix (s : Scanner) (n : Nat) :
    (s.afterTokens n).cursor.text <:+ s.cursor.text := by
  induction n with
  | zero => exact List.suffix_refl _
  | succ n ih => exact (Cursor.token_text_suffix _).trans ih

/-- The next token is the one that the grammar tells behind the longest gap. -/
def FollowsGrammar (s : Scanner) : Prop :=
  ∃ gap text, LongestGap s.cursor.text gap text ∧
    FrontToken text s.scanToken.1 s.scanToken.2.cursor.text

/-- **Longest match.** However many tokens have been taken from a source text, some end of it is
    left, and the next token is the longest that the grammar tells behind the longest gap there, or
    the complaint that there is none, or the end of the text. -/
theorem followsGrammar_afterTokens (source : String) (n : Nat) :
    ((ofSource source).afterTokens n).cursor.text <:+ source.toList ∧
      ((ofSource source).afterTokens n).FollowsGrammar := by
  refine ⟨afterTokens_text_suffix (ofSource source) n, ?_⟩
  generalize (ofSource source).afterTokens n = s
  exact ⟨s.cursor.gap, s.cursor.skipGap.text, s.cursor.longestGap_skipGap,
    s.cursor.frontToken_token⟩

end Scanner

end Abacus
