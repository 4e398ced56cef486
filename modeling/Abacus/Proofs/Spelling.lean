import Abacus.Proofs.Gap
import Abacus.Proofs.Munching

namespace Abacus

/-!
# Scanning a text piece by piece

* `Cursor.Gives c ts c'` — the tokens from `c` up to `c'` are `ts`.
* `Cursor.Gives.scan_body`, `Cursor.Gives.scan_toList` — they come first in the scan from `c`.
* `Cursor.gives_of_munched` — a token that the rules find, with no gap before it, is given.
* `Cursor.gives_delimiter`, `Cursor.gives_operator`, `Cursor.gives_numeral` — the tokens that an
  expression is made of.
* `Cursor.Gives.behind_blank` — a blank before the first token makes no difference.
-/

theorem isBlank_eq_false_of_isDigit {c : Char} (h : c.isDigit) : isBlank c = false := by
  rw [Bool.eq_false_iff, ne_eq, isBlank_iff]
  simp only [List.mem_cons, List.not_mem_nil, or_false]
  rintro (rfl | rfl | rfl | rfl) <;> exact absurd h (by decide)

namespace Cursor

/-- Some tokens are scanned one after the other, and none of them is the end of the text. -/
inductive Gives : Cursor → List Token → Cursor → Prop where
  | nil {c : Cursor} : Gives c [] c
  | cons {c c' : Cursor} {ts : List Token} :
      c.token.1.kind ≠ .eof → Gives c.token.2 ts c' → Gives c (c.token.1 :: ts) c'

variable {c c' c'' d : Cursor} {ts us : List Token}

/-- A text gives what its parts give, one after the other. -/
theorem Gives.trans (h : Gives c ts c') (h' : Gives c' us c'') : Gives c (ts ++ us) c'' := by
  induction h with
  | nil => exact h'
  | cons hk _ ih => exact .cons hk (ih h')

/-- What a text gives is scanned before anything else. -/
theorem Gives.scan_body (h : Gives c ts c') : c.scan.body = ts ++ c'.scan.body := by
  induction h with
  | nil => rfl
  | cons hk _ ih =>
    rw [scan_of_ne_eof hk, List.cons_append, ← ih]
    rfl

theorem Gives.scan_toList (h : Gives c ts c') : c.scan.toList = ts ++ c'.scan.toList := by
  induction h with
  | nil => rfl
  | cons hk _ ih => rw [scan_of_ne_eof hk, TokenStream.toList_cons, ih, List.cons_append]

/-- The first tokens of a scan are scanned up to some place, and the others from there on. -/
theorem exists_gives_of_scan_body (h : c.scan.body = ts ++ us) :
    ∃ c', Gives c ts c' ∧ c'.scan.body = us := by
  induction ts generalizing c with
  | nil => exact ⟨c, .nil, h⟩
  | cons t ts ih =>
    by_cases hk : c.token.1.kind = .eof
    · rw [scan_of_eof hk] at h
      cases h
    · rw [scan_of_ne_eof hk] at h
      injection h with ht hrest
      subst ht
      obtain ⟨c', hgives, hbody⟩ := ih hrest
      exact ⟨c', .cons hk hgives, hbody⟩

/-- What a text gives can be divided anywhere between two tokens. -/
theorem Gives.exists_of_append (h : Gives c (ts ++ us) c') :
    ∃ d, Gives c ts d ∧ Gives d us c' := by
  induction ts generalizing c with
  | nil => exact ⟨c, .nil, h⟩
  | cons t ts ih =>
    cases h with
    | cons hk hrest =>
      obtain ⟨d, hts, hus⟩ := ih hrest
      exact ⟨d, .cons hk hts, hus⟩

/-- The first token that a text gives is the one at its front. -/
theorem Gives.token_eq {t : Token} (h : Gives c (t :: ts) c') : t.kind ≠ .eof ∧ c.token.1 = t := by
  cases h with
  | cons hk _ => exact ⟨hk, rfl⟩

/-- A token that does not end the text is given. -/
theorem Gives.single {t : Token} (h : c.token = (t, c')) (hk : t.kind ≠ .eof) :
    Gives c [t] c' := by
  have hgives : Gives c [c.token.1] c.token.2 := .cons (by rw [h]; exact hk) .nil
  rwa [h] at hgives

/-- From the first token on, only that token matters. -/
theorem Gives.of_token_eq (h : Gives d ts c') (hne : ts ≠ []) (heq : c.token = d.token) :
    Gives c ts c' := by
  cases h with
  | nil => exact absurd rfl hne
  | cons hk hrest =>
    rw [← heq] at hk hrest ⊢
    exact .cons hk hrest

/-- A blank before a token only moves it. -/
theorem token_blank {ch : Char} (h : isBlank ch) (text : List Char) (position : Position) :
    token ⟨ch :: text, position⟩ = token ⟨text, position.next ch⟩ :=
  token_gap (.blank (isBlank_iff.1 h) .nil) position

/-- A text gives the same tokens with a blank before it. -/
theorem Gives.behind_blank {ch : Char} {text : List Char} {position : Position}
    (h : Gives ⟨text, position.next ch⟩ ts c') (hne : ts ≠ []) (hb : isBlank ch) :
    Gives ⟨ch :: text, position⟩ ts c' :=
  h.of_token_eq hne (token_blank hb text position)

/-- What the rules find at the front of a text is scanned there, if no gap comes first. -/
theorem gives_of_munched {m : Munch} (h : Munched m)
    (hgap : splitGap false (m.span ++ m.rest) = ([], m.span ++ m.rest)) (position : Position) :
    Gives ⟨m.span ++ m.rest, position⟩ [⟨m.kind, m.lexeme, position⟩]
      ⟨m.rest, position.after m.span⟩ := by
  obtain ⟨ch, cs, htext, hmunch⟩ := h.exists_munch_eq
  have hskip : skipGap ⟨m.span ++ m.rest, position⟩ = ⟨m.span ++ m.rest, position⟩ := by
    simp only [skipGap, hgap, Position.after_nil]
  refine .single ?_ (hmunch ▸ (munch_kind ch cs).1)
  rw [token_of_cons (by rw [hskip]; exact htext), hmunch, hskip]

/-- The character of a delimiter gives the delimiter. -/
theorem gives_delimiter (mark : Delimiter) (rest : List Char) (position : Position) :
    Gives ⟨mark.char :: rest, position⟩
      [⟨.delimiter mark, String.ofList [mark.char], position⟩] ⟨rest, position.next mark.char⟩ := by
  have hslash : mark.char ≠ '/' := by cases mark <;> decide
  exact gives_of_munched .delimiter
    (splitGap_of_not_blank (by cases mark <;> decide) fun h => absurd h hslash) position

/-- An operator is given unless what follows it goes on with an equals sign or makes a comment. -/
theorem gives_operator (mark : Operator) {rest : List Char} (hequal : Stops (· = '=') rest)
    (hslash : mark = .slash → Stops (· = '/') rest) (position : Position) :
    Gives ⟨mark.char :: rest, position⟩
      [⟨.operator mark false, String.ofList [mark.char], position⟩]
      ⟨rest, position.next mark.char⟩ := by
  refine gives_of_munched (.single hequal) (splitGap_of_not_blank (by cases mark <;> decide) ?_)
    position
  rintro hchar more rfl
  have hmark : mark = .slash := by cases mark <;> first | rfl | exact absurd hchar (by decide)
  exact absurd (stops_cons.1 (hslash hmark)) (by decide)

/-- A numeral is given unless what follows it goes on with a digit or a point. -/
theorem gives_numeral {word rest : List Char} (h : IsNumeral word)
    (hdigit : Stops Char.isDigit rest) (hpoint : Stops (· = '.') rest) (position : Position) :
    Gives ⟨word ++ rest, position⟩ [⟨.number, String.ofList word, position⟩]
      ⟨rest, position.after word⟩ := by
  have hmunched : Munched (.plain .number word rest) := by
    rcases h with hd | ⟨whole, digits, hw, hd, rfl⟩
    · refine .whole hd hdigit ?_
      rintro more rfl
      exact absurd (stops_cons.1 hpoint) (by decide)
    · exact .fraction hw hd hdigit
  obtain ⟨c, cs, rfl, hc⟩ := h.exists_cons
  refine gives_of_munched hmunched
    (splitGap_of_not_blank (isBlank_eq_false_of_isDigit hc) ?_) position
  rintro rfl
  exact absurd hc (by decide)

end Cursor

end Abacus
