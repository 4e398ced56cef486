import Abacus.Token.Scan

namespace Abacus

/-!
# Gaps between tokens

* `Gap gap rest` — `gap`, with `rest` behind it, is made of blanks and comments.
* `splitGap_of_gap` — a gap is split off, and what is split off the rest as well.
* `longestGap_splitGap` — so what is split off a text is the longest gap at its front.
* `Gap.of_not_endsLine`, `Gap.outside_or_inside` — what may stand behind a gap instead.
* `Cursor.token_of_nil`, `Cursor.token_of_cons` — the token behind a gap.
* `Cursor.token_gap` — a gap before a token moves the token only.
-/

/-- A line ends before a text that is empty or begins with a newline. -/
def EndsLine (text : List Char) : Prop := text = [] ∨ ∃ more, text = '\n' :: more

/-- A text made of blanks and of comments, which run from two slashes to the end of their line; what
    stands behind the text tells where a last comment ends. -/
inductive Gap : (gap rest : List Char) → Prop where
  | nil {rest : List Char} : Gap [] rest
  | blank {c : Char} {gap rest : List Char} :
      c ∈ [' ', '\t', '\r', '\n'] → Gap gap rest → Gap (c :: gap) rest
  | comment {line gap rest : List Char} :
      '\n' ∉ line → EndsLine (gap ++ rest) → Gap gap rest →
        Gap ('/' :: '/' :: line ++ gap) rest

/-- A gap and what follows it make up a text, and no gap at its front is longer. -/
structure LongestGap (text gap rest : List Char) : Prop where
  append : gap ++ rest = text
  isGap : Gap gap rest
  longest : ∀ gap' rest', gap' ++ rest' = text → Gap gap' rest' → gap'.length ≤ gap.length

/-- The blanks are the space, the tab, the carriage return and the newline. -/
theorem isBlank_iff {c : Char} : isBlank c = true ↔ c ∈ [' ', '\t', '\r', '\n'] := by
  simp [isBlank, or_assoc]

/-! ### What is split off is a gap -/

/-- The rest of a comment's line, and then a gap. -/
def CommentEnd (text rest : List Char) : Prop :=
  ∃ line gap, text = line ++ gap ∧ '\n' ∉ line ∧ EndsLine (gap ++ rest) ∧ Gap gap rest

/-- What is split off a text that begins inside a comment, or outside. -/
def GapFrom : (inComment : Bool) → (text rest : List Char) → Prop
  | true => CommentEnd
  | false => Gap

/-- What is split off is a gap, or the end of a comment and then a gap. -/
theorem gapFrom_splitGap (inComment : Bool) (text : List Char) :
    GapFrom inComment (splitGap inComment text).1 (splitGap inComment text).2 := by
  fun_induction splitGap inComment text with
  | case1 inComment =>
    cases inComment with
    | false => exact .nil
    | true => exact ⟨[], [], rfl, List.not_mem_nil, .inl rfl, .nil⟩
  | case2 c cs gap rest hsplit ih =>
    rw [hsplit] at ih
    by_cases hc : c = '\n'
    -- The newline ends the comment and is a blank of the gap behind it.
    · subst hc
      exact ⟨[], '\n' :: gap, rfl, List.not_mem_nil, .inr ⟨_, rfl⟩, .blank (by simp) ih⟩
    · rw [bne_iff_ne.2 hc] at ih
      obtain ⟨line, gap', rfl, hline, hends, hgap⟩ := ih
      refine ⟨c :: line, gap', rfl, ?_, hends, hgap⟩
      rintro (_ | ⟨_, hmem⟩)
      · exact hc rfl
      · exact hline hmem
  | case3 cs gap rest hsplit ih =>
    rw [hsplit] at ih
    obtain ⟨line, gap', rfl, hline, hends, hgap⟩ := ih
    exact .comment hline hends hgap
  | case4 c cs _ hc gap rest hsplit ih =>
    rw [hsplit] at ih
    exact .blank (isBlank_iff.1 hc) ih
  | case5 c cs _ hc => exact .nil

/-! ### A gap is split off -/

/-- Two slashes begin a comment. -/
theorem splitGap_slashes (text : List Char) :
    splitGap false ('/' :: '/' :: text)
      = ('/' :: '/' :: (splitGap true text).1, (splitGap true text).2) := by
  rw [splitGap]

theorem splitGap_blank {c : Char} (h : isBlank c = true) (text : List Char) :
    splitGap false (c :: text) = (c :: (splitGap false text).1, (splitGap false text).2) := by
  rw [splitGap]
  · rw [if_pos h]
  · rintro more rfl -
    exact absurd h (by decide)

/-- Nothing is split off a text that begins neither with a blank nor with two slashes. -/
theorem splitGap_of_not_blank {c : Char} {text : List Char} (h : isBlank c = false)
    (hs : c = '/' → ∀ more, text ≠ '/' :: more) : splitGap false (c :: text) = ([], c :: text) := by
  rw [splitGap]
  · rw [if_neg (by simp [h])]
  · rintro more rfl rfl
    exact hs rfl more rfl

/-- A comment goes on to the end of its line. -/
theorem splitGap_line {line : List Char} (h : '\n' ∉ line) (text : List Char) :
    splitGap true (line ++ text) = (line ++ (splitGap true text).1, (splitGap true text).2) := by
  induction line with
  | nil => rfl
  | cons c line ih =>
    rw [List.mem_cons, not_or] at h
    have hc : (c != '\n') = true := bne_iff_ne.2 (Ne.symm h.1)
    rw [List.cons_append, splitGap, hc, ih h.2]
    rfl

/-- At the end of its line, a comment is over. -/
theorem splitGap_of_endsLine {text : List Char} (h : EndsLine text) :
    splitGap true text = splitGap false text := by
  rcases h with rfl | ⟨more, rfl⟩
  · rfl
  · rw [splitGap_blank (by decide), splitGap]
    rfl

/-- A gap is split off the text that it begins, together with what is split off the rest. -/
theorem splitGap_of_gap {gap rest : List Char} (h : Gap gap rest) :
    splitGap false (gap ++ rest) = (gap ++ (splitGap false rest).1, (splitGap false rest).2) := by
  induction h with
  | nil => rfl
  | blank hc _ ih => rw [List.cons_append, splitGap_blank (isBlank_iff.2 hc), ih]; rfl
  | comment hline hends _ ih =>
    rw [List.append_assoc, List.cons_append, List.cons_append, splitGap_slashes,
      splitGap_line hline, splitGap_of_endsLine hends, ih, List.append_assoc]
    rfl

/-- What is split off a text is the longest gap at its front. -/
theorem longestGap_splitGap (text : List Char) :
    LongestGap text (splitGap false text).1 (splitGap false text).2 where
  append := splitGap_append false text
  isGap := gapFrom_splitGap false text
  longest := by
    rintro gap rest rfl hgap
    rw [splitGap_of_gap hgap, List.length_append]
    exact Nat.le_add_right _ _

/-- Behind a gap that was split off there is none. -/
theorem splitGap_splitGap (text : List Char) :
    splitGap false (splitGap false text).2 = ([], (splitGap false text).2) := by
  have hgap : Gap (splitGap false text).1 (splitGap false text).2 := gapFrom_splitGap false text
  have hsplit := splitGap_of_gap hgap
  rw [splitGap_append, Prod.ext_iff] at hsplit
  refine Prod.ext ?_ hsplit.2.symm
  exact List.self_eq_append_right.1 hsplit.1

/-! ### What may stand behind a gap -/

/-- No comment reaches up to a text that does not end a line, so anything else may stand there. -/
theorem Gap.of_not_endsLine {gap rest : List Char} (h : Gap gap rest) (hrest : ¬ EndsLine rest)
    (rest' : List Char) : Gap gap rest' := by
  induction h with
  | nil => exact .nil
  | blank hc _ ih => exact .blank hc (ih hrest)
  | @comment line gap rest hline hends _ ih =>
    refine .comment hline ?_ (ih hrest)
    cases gap with
    | nil => exact absurd hends hrest
    | cons c gap =>
      rcases hends with hnil | ⟨more, hcons⟩
      · cases hnil
      · injection hcons with hc
        subst hc
        exact .inr ⟨_, rfl⟩

/-- A character behind a gap that reaches to the end of a text stands outside of it, or inside of a
    comment. -/
theorem Gap.outside_or_inside {gap : List Char} (h : Gap gap []) {c : Char} (hc : c ≠ '\n') :
    Gap gap [c] ∨ Gap (gap ++ [c]) [] := by
  generalize hrest : ([] : List Char) = rest at h
  induction h with
  | nil => exact .inl .nil
  | blank hb _ ih => exact (ih hrest).imp (.blank hb) (.blank hb)
  | @comment line gap rest hline hends hgap ih =>
    subst hrest
    cases gap with
    | nil =>
      have hline' : '\n' ∉ line ++ [c] := by
        rw [List.mem_append, List.mem_singleton, not_or]
        exact ⟨hline, Ne.symm hc⟩
      right
      simpa using Gap.comment hline' (.inl rfl) (@Gap.nil [])
    | cons d gap =>
      rcases hends with hnil | ⟨more, hcons⟩
      · cases hnil
      · injection hcons with hd
        subst hd
        rcases ih rfl with hout | hin
        · exact .inl (.comment hline (.inr ⟨_, rfl⟩) hout)
        · right
          rw [List.append_assoc]
          exact .comment hline (.inr ⟨_, rfl⟩) hin

/-! ### Behind the gap -/

namespace Cursor

variable {c : Cursor} {ch : Char} {cs : List Char}

/-- The gap that stands at a cursor. -/
def gap (c : Cursor) : List Char := (splitGap false c.text).1

/-- A cursor skips the longest gap. -/
theorem longestGap_skipGap (c : Cursor) : LongestGap c.text c.gap c.skipGap.text :=
  longestGap_splitGap c.text

theorem skipGap_position (c : Cursor) : c.skipGap.position = c.position.after c.gap := rfl

/-- Behind the last gap stands the end of the text. -/
theorem token_of_nil (h : c.skipGap.text = []) :
    c.token = (⟨.eof, "", c.skipGap.position⟩, c.skipGap) := by
  simp only [token, h]

/-- Behind any other gap stands what is longest there. -/
theorem token_of_cons (h : c.skipGap.text = ch :: cs) :
    c.token = (⟨(munch ch cs).kind, (munch ch cs).lexeme, c.skipGap.position⟩,
      ⟨(munch ch cs).rest, c.skipGap.position.after (munch ch cs).span⟩) := by
  simp only [token, h]

/-- A gap before a token moves the token only. -/
theorem token_gap {gap rest : List Char} (h : Gap gap rest) (position : Position) :
    token ⟨gap ++ rest, position⟩ = token ⟨rest, position.after gap⟩ := by
  have hskip : skipGap ⟨gap ++ rest, position⟩ = skipGap ⟨rest, position.after gap⟩ := by
    simp only [skipGap, splitGap_of_gap h, Position.after_append]
  simp only [token, hskip]

/-- Behind a gap there is no further one. -/
theorem skipGap_skipGap (c : Cursor) : c.skipGap.skipGap = c.skipGap := by
  show Cursor.mk _ _ = _
  rw [show splitGap false c.skipGap.text = ([], c.skipGap.text) from splitGap_splitGap c.text]
  rfl

/-- The gap before a token can be skipped first. -/
theorem token_skipGap (c : Cursor) : c.skipGap.token = c.token := by
  simp only [token, skipGap_skipGap]

/-- A token stands behind the gap. -/
theorem position_token (c : Cursor) : c.token.1.position = c.skipGap.position := by
  unfold token
  split <;> rfl

/-- Behind the gap stands no blank. -/
theorem isBlank_of_skipGap (h : c.skipGap.text = ch :: cs) : isBlank ch = false := by
  have hsplit := splitGap_splitGap c.text
  rw [show (splitGap false c.text).2 = ch :: cs from h] at hsplit
  rw [Bool.eq_false_iff]
  intro hb
  rw [splitGap_blank hb] at hsplit
  cases congrArg Prod.fst hsplit

/-- Where a gap stops before a character, no line ends. -/
theorem not_endsLine_skipGap (h : c.skipGap.text = ch :: cs) : ¬ EndsLine c.skipGap.text := by
  rw [h]
  rintro (hnil | ⟨more, hcons⟩)
  · cases hnil
  · injection hcons with hch
    subst hch
    exact absurd (isBlank_of_skipGap h) (by decide)

end Cursor

end Abacus
