import Abacus.Proofs.LayoutIndependence
import Abacus.Proofs.Spelling
import Abacus.Proofs.Tiling

namespace Abacus

/-!
# Texts of arithmetic tokens

A text that is scanned to numbers, parentheses and operators can be told without positions, so its
pieces can be put together in another way, and parentheses between them.

* `IsWord kind word rest` — `word`, with `rest` behind it, is such a token.
* `Spells spellings text rest` — `text`, with `rest` behind it, is made of gaps and such tokens.
* `Cursor.Gives.exists_spells` — a text from which such tokens are scanned spells them.
* `Spells.exists_gives` — from a text that spells tokens these are scanned.
-/

/-! ### Gaps -/

/-- A gap begins with a blank or a slash, so it stops what these stop. -/
theorem Gap.stops {p : Char → Bool} {gap rest : List Char} (h : Gap gap rest)
    (hp : ∀ c ∈ [' ', '\t', '\r', '\n', '/'], p c = false) (hrest : Stops p rest) :
    Stops p (gap ++ rest) := by
  cases h with
  | nil => exact hrest
  | blank hc _ => exact stops_cons.2 (hp _ (by simp at hc ⊢; tauto))
  | comment _ _ _ => exact stops_cons.2 (hp _ (by simp))

/-- No gap begins with a point. -/
theorem Gap.stops_point {gap : List Char} (h : Gap gap []) : Stops (· = '.') gap := by
  rw [← List.append_nil gap]
  exact h.stops (by simp) (stops_nil _)

/-- Behind the gap at a cursor stands no comment. -/
theorem Cursor.stops_slash_of_skipGap {c : Cursor} {cs : List Char}
    (h : c.skipGap.text = '/' :: cs) : Stops (· = '/') cs := by
  have hsplit := splitGap_splitGap c.text
  rw [show (splitGap false c.text).2 = '/' :: cs from h] at hsplit
  cases cs with
  | nil => exact stops_nil _
  | cons d cs =>
    rw [stops_cons, decide_eq_false_iff_not]
    rintro rfl
    rw [splitGap_slashes] at hsplit
    cases congrArg Prod.fst hsplit

/-! ### Words -/

/-- The kinds of token that sentences are made of. -/
def Kind.IsArithmetic (kind : Kind) : Prop :=
  kind = .number ∨ kind = .delimiter .leftParen ∨ kind = .delimiter .rightParen ∨
    ∃ mark, kind = .operator mark false

/-- A word is a number, a parenthesis or an operator, and the text behind it does not go on with
    it. -/
inductive IsWord : Kind → (word rest : List Char) → Prop where
  | number {word rest : List Char} :
      IsNumeral word → Stops Char.isDigit rest → Stops (· = '.') rest → IsWord .number word rest
  | opening {rest : List Char} : IsWord (.delimiter .leftParen) ['('] rest
  | closing {rest : List Char} : IsWord (.delimiter .rightParen) [')'] rest
  | operator {mark : Operator} {rest : List Char} :
      Stops (· = '=') rest → (mark = .slash → Stops (· = '/') rest) →
        IsWord (.operator mark false) [mark.char] rest

/-- A text can take the place of another behind a word: it begins alike, or with a parenthesis. -/
def TakesPlaceOf (rest' rest : List Char) : Prop :=
  rest'.head? = rest.head? ∨ rest'.head? = some '(' ∨ rest'.head? = some ')'

/-- Behind the same text, a text can take the place that it can take without it. -/
theorem TakesPlaceOf.append {rest' rest : List Char} (h : TakesPlaceOf rest' rest)
    (text : List Char) : TakesPlaceOf (text ++ rest') (text ++ rest) := by
  cases text with
  | nil => exact h
  | cons c text => exact .inl rfl

/-- A text in the place of another stops a class with no parentheses as the other does. -/
theorem Stops.of_takesPlaceOf {p : Char → Bool} {rest rest' : List Char} (h : Stops p rest)
    (hplace : TakesPlaceOf rest' rest) (hopening : p '(' = false) (hclosing : p ')' = false) :
    Stops p rest' := by
  unfold Stops
  rcases hplace with hsame | hparen | hparen
  · rw [hsame]
    exact h
  · rw [hparen]
    exact fun c hc => Option.mem_some_iff.1 hc ▸ hopening
  · rw [hparen]
    exact fun c hc => Option.mem_some_iff.1 hc ▸ hclosing

namespace IsWord

variable {kind : Kind} {word rest : List Char}

/-- A word stays one when a text takes the place of what follows. -/
theorem of_takesPlaceOf {rest' : List Char} (h : IsWord kind word rest)
    (hplace : TakesPlaceOf rest' rest) : IsWord kind word rest' := by
  cases h with
  | number hw hdigit hpoint =>
    exact .number hw (hdigit.of_takesPlaceOf hplace (by decide) (by decide))
      (hpoint.of_takesPlaceOf hplace (by decide) (by decide))
  | opening => exact .opening
  | closing => exact .closing
  | operator hequal hslash =>
    exact .operator (hequal.of_takesPlaceOf hplace (by decide) (by decide))
      fun hm => (hslash hm).of_takesPlaceOf hplace (by decide) (by decide)

/-- A word begins neither with a point nor with a newline. -/
theorem exists_cons (h : IsWord kind word rest) : ∃ c cs, word = c :: cs ∧ c ≠ '.' ∧ c ≠ '\n' := by
  cases h with
  | number hw _ _ =>
    obtain ⟨c, cs, rfl, hc⟩ := hw.exists_cons
    refine ⟨c, cs, rfl, ?_, ?_⟩
    · rintro rfl
      exact absurd hc (by decide)
    · rintro rfl
      exact absurd hc (by decide)
  | opening => exact ⟨_, _, rfl, by decide, by decide⟩
  | closing => exact ⟨_, _, rfl, by decide, by decide⟩
  | @operator mark => cases mark <;> exact ⟨_, _, rfl, by decide, by decide⟩

/-- No line ends before a word. -/
theorem not_endsLine (h : IsWord kind word rest) (more : List Char) :
    ¬ EndsLine (word ++ more) := by
  obtain ⟨c, cs, rfl, -, hc⟩ := h.exists_cons
  rintro (hnil | ⟨more', hcons⟩)
  · cases hnil
  · injection hcons with hch
    exact hc hch

/-- A word is scanned. -/
theorem gives (h : IsWord kind word rest) (position : Position) :
    Cursor.Gives ⟨word ++ rest, position⟩ [⟨kind, String.ofList word, position⟩]
      ⟨rest, position.after word⟩ := by
  cases h with
  | number hw hdigit hpoint => exact Cursor.gives_numeral hw hdigit hpoint position
  | opening => exact Cursor.gives_delimiter .leftParen rest position
  | closing => exact Cursor.gives_delimiter .rightParen rest position
  | operator hequal hslash => exact Cursor.gives_operator _ hequal hslash position

end IsWord

/-- A token of the kinds that sentences are made of is a word, unless a point or a comment
    follows. -/
theorem Munched.isWord {m : Munch} (h : Munched m) (hk : m.kind.IsArithmetic)
    (hpoint : Stops (· = '.') m.rest) (hslash : m.span = ['/'] → Stops (· = '/') m.rest) :
    m.lexeme = String.ofList m.span ∧ IsWord m.kind m.span m.rest := by
  unfold Kind.IsArithmetic at hk
  cases h with
  | @word c cs rest _ _ _ =>
    -- Neither a keyword nor an identifier stands in a sentence.
    rcases wordKind_cases (c :: cs) with ⟨k, -, hw⟩ | ⟨-, hw⟩
    · simp [hw] at hk
    · simp [hw] at hk
  | whole hd hdigit _ => exact ⟨rfl, .number (.inl hd) hdigit hpoint⟩
  | fraction hw hd hdigit => exact ⟨rfl, .number (.inr ⟨_, _, hw, hd, rfl⟩) hdigit hpoint⟩
  | @delimiter mark rest =>
    have hmark : mark = .leftParen ∨ mark = .rightParen := by simpa using hk
    rcases hmark with rfl | rfl
    · exact ⟨rfl, .opening⟩
    · exact ⟨rfl, .closing⟩
  | @single mark rest hequal =>
    refine ⟨rfl, .operator hequal ?_⟩
    rintro rfl
    exact hslash rfl
  | closed _ => simp at hk
  | unclosed _ => simp [Munch.complaint] at hk
  | joined => simp at hk
  | unexpected _ => simp [Munch.complaint] at hk

/-- An arithmetic token is a word with a gap before it, unless a point follows. -/
theorem Cursor.exists_isWord {c : Cursor} (h : c.token.1.kind.IsArithmetic)
    (hpoint : Stops (· = '.') c.token.2.text) :
    ∃ word, c.token.1.lexeme = String.ofList word ∧ c.skipGap.text = word ++ c.token.2.text ∧
      c.token.2.position = c.skipGap.position.after word ∧
      IsWord c.token.1.kind word c.token.2.text := by
  have hne : c.token.1.kind ≠ .eof := by
    rcases h with h | h | h | ⟨mark, h⟩ <;> simp [h]
  obtain ⟨ch, cs, hs⟩ := exists_skipGap_eq_of_ne_eof hne
  have hspan := munch_append ch cs
  rw [token_of_cons hs] at h hpoint ⊢
  have hslash : (munch ch cs).span = ['/'] → Stops (· = '/') (munch ch cs).rest := by
    intro hspan'
    rw [← hspan, hspan'] at hs
    exact stops_slash_of_skipGap hs
  obtain ⟨hlexeme, hword⟩ := (munched_munch ch cs).isWord h hpoint hslash
  exact ⟨(munch ch cs).span, hlexeme, hs.trans hspan.symm, rfl, hword⟩

/-! ### Texts that spell tokens -/

/-- A text is made of gaps and words, and another stands behind it. -/
inductive Spells : List (Kind × String) → (text rest : List Char) → Prop where
  | nil {rest : List Char} : Spells [] [] rest
  | cons {kind : Kind} {gap word text rest : List Char} {spellings : List (Kind × String)} :
      Gap gap (word ++ (text ++ rest)) → IsWord kind word (text ++ rest) →
        Spells spellings text rest →
          Spells ((kind, String.ofList word) :: spellings) (gap ++ word ++ text) rest

namespace Spells

variable {spellings more : List (Kind × String)} {text text' rest rest' : List Char}

theorem append (h : Spells spellings text (text' ++ rest)) (h' : Spells more text' rest) :
    Spells (spellings ++ more) (text ++ text') rest := by
  generalize hbehind : text' ++ rest = behind at h
  induction h with
  | nil => exact h'
  | @cons _ _ _ text₁ _ _ hgap hword _ ih =>
    subst hbehind
    rw [← List.append_assoc text₁] at hgap hword
    rw [List.append_assoc]
    exact .cons hgap hword (ih rfl)

/-- Behind the text, only the next character matters. -/
theorem of_takesPlaceOf (h : Spells spellings text rest) (hplace : TakesPlaceOf rest' rest) :
    Spells spellings text rest' := by
  induction h with
  | nil => exact .nil
  | cons hgap hword _ ih =>
    refine .cons ?_ (hword.of_takesPlaceOf (hplace.append _)) (ih hplace)
    -- A comment in the gap ends in its own line, whatever stands behind the word.
    exact hgap.of_not_endsLine (hword.not_endsLine _) _

/-- Neither a gap nor a word begins with a point. -/
theorem stops_point (h : Spells spellings text rest) (hrest : Stops (· = '.') rest) :
    Stops (· = '.') (text ++ rest) := by
  cases h with
  | nil => exact hrest
  | cons hgap hword _ =>
    rw [List.append_assoc, List.append_assoc]
    refine hgap.stops (by simp) ?_
    obtain ⟨c, cs, rfl, hc, -⟩ := hword.exists_cons
    exact stops_cons.2 (by simpa using hc)

/-- The tokens that a text spells are scanned from it, wherever it stands. -/
theorem exists_gives (h : Spells spellings text rest) (position : Position) :
    ∃ ts, Cursor.Gives ⟨text ++ rest, position⟩ ts ⟨rest, position.after text⟩ ∧
      ts.map Token.spelling = spellings := by
  induction h generalizing position with
  | nil => exact ⟨[], .nil, rfl⟩
  | @cons kind gap word text rest _ hgap hword _ ih =>
    obtain ⟨ts, hgives, hts⟩ := ih ((position.after gap).after word)
    have hfirst := (hword.gives (position.after gap)).trans hgives
    have hall := hfirst.of_token_eq (List.cons_ne_nil _ _) (Cursor.token_gap hgap position)
    rw [List.append_assoc, List.append_assoc, Position.after_append, Position.after_append]
    exact ⟨_, hall, congrArg _ hts⟩

end Spells

/-- A text from which arithmetic tokens are scanned spells them, unless a point follows. -/
theorem Cursor.Gives.exists_spells {c c' : Cursor} {ts : List Token} (h : Gives c ts c')
    (hts : ∀ t ∈ ts, t.kind.IsArithmetic) (hpoint : Stops (· = '.') c'.text) :
    ∃ text, c.text = text ++ c'.text ∧ c'.position = c.position.after text ∧
      Spells (ts.map Token.spelling) text c'.text := by
  induction h with
  | nil => exact ⟨[], rfl, rfl, .nil⟩
  | @cons c c' ts _ _ ih =>
    rw [List.forall_mem_cons] at hts
    obtain ⟨text, htext, hposition, hspells⟩ := ih hts.2 hpoint
    -- A number before a point could be longer in another text, so none may follow.
    have hnext : Stops (· = '.') c.token.2.text := htext ▸ hspells.stops_point hpoint
    obtain ⟨word, hlexeme, hskip, hafter, hword⟩ := exists_isWord hts.1 hnext
    have hgap := c.longestGap_skipGap
    rw [hskip, htext] at hgap
    rw [htext] at hword
    refine ⟨c.gap ++ word ++ text, ?_, ?_, ?_⟩
    · rw [← hgap.append, List.append_assoc, List.append_assoc]
    · rw [hposition, hafter, skipGap_position, Position.after_append, Position.after_append]
    · have hspelling : c.token.1.spelling = (c.token.1.kind, String.ofList word) :=
        congrArg (Prod.mk _) hlexeme
      rw [List.map_cons, hspelling]
      exact .cons hgap.isGap hword hspells

/-- A text from which arithmetic tokens are scanned does not begin with a point, unless one stands
    behind it. -/
theorem Cursor.Gives.stops_point {c c' : Cursor} {ts : List Token} (h : Gives c ts c')
    (hts : ∀ t ∈ ts, t.kind.IsArithmetic) (hpoint : Stops (· = '.') c'.text) :
    Stops (· = '.') c.text := by
  obtain ⟨text, htext, -, hspells⟩ := h.exists_spells hts hpoint
  rw [htext]
  exact hspells.stops_point hpoint

/-! ### Pieces of a scan -/

namespace Cursor

variable {c c' : Cursor} {ts us : List Token}

/-- Where no token is left, there is only a gap. -/
theorem gap_of_scan_body_eq_nil (h : c.scan.body = []) : Gap c.text [] := by
  have heof : c.token.1.kind = .eof := by
    by_contra hk
    rw [scan_of_ne_eof hk] at h
    cases h
  have hgap := c.longestGap_skipGap
  rw [skipGap_eq_nil_of_eof heof] at hgap
  rw [← hgap.append, List.append_nil]
  exact hgap.isGap

/-- A text that is a gap has no tokens. -/
theorem scan_body_of_gap {text : List Char} (h : Gap text []) (position : Position) :
    (scan ⟨text, position⟩).body = [] := by
  have htoken := token_gap h position
  rw [List.append_nil] at htoken
  rw [scan_of_eof (by rw [htoken]; rfl)]

/-- The last of some arithmetic tokens stands where its lexeme ends what is scanned. -/
theorem Gives.exists_last {t : Token} (h : Gives c (ts ++ [t]) c')
    (hts : ∀ u ∈ ts ++ [t], u.kind.IsArithmetic) (hpoint : Stops (· = '.') c'.text) :
    ∃ text, c.text = text ++ t.lexeme.toList ++ c'.text ∧ t.position = c.position.after text := by
  rw [List.forall_mem_append, List.forall_mem_singleton] at hts
  obtain ⟨d, hbefore, hlast⟩ := h.exists_of_append
  cases hlast with
  | cons hk hnil =>
    cases hnil
    obtain ⟨word, hlexeme, hskip, -, -⟩ := exists_isWord hts.2 hpoint
    have hgap := d.longestGap_skipGap
    rw [hskip] at hgap
    have hpoint' := (Gives.cons hk .nil).stops_point (List.forall_mem_singleton.2 hts.2) hpoint
    obtain ⟨text, htext, hposition, -⟩ := hbefore.exists_spells hts.1 hpoint'
    refine ⟨text ++ d.gap, ?_, ?_⟩
    · rw [htext, ← hgap.append, hlexeme, String.toList_ofList]
      simp only [List.append_assoc]
    · rw [position_token, skipGap_position, hposition, Position.after_append]

end Cursor

end Abacus
