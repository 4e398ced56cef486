import Abacus.Proofs.Spelling
import Abacus.Proofs.Tiling

namespace Abacus

/-!
# Where tokens end

A token ends where the text behind it does not go on with it, which one or two characters tell. A
blank never goes on with a token, and neither does the end of the text, so both may come earlier
than they did. Only a string that was never closed needs all of the text.

* `Clipped text text'` — `text'` goes along with `text` until it ends or a blank stands in it.
* `Munched.clipped`, `splitGap_clipped` — the text behind a token may be clipped, and so may a text
  with no gap at its front.
* `Cursor.Shows c m` — the token behind the gap at a cursor, told by the rules.
* `Cursor.Shows.gives_clipped` — it is still given when the text behind it is clipped.
-/

/-! ### Clipped texts -/

/-- A text goes along with another one until it ends or a blank stands in it. -/
inductive Clipped : (text text' : List Char) → Prop where
  | ends {text : List Char} : Clipped text []
  | blank {c : Char} {text more : List Char} : isBlank c = true → Clipped text (c :: more)
  | same {c : Char} {text text' : List Char} : Clipped text text' → Clipped (c :: text) (c :: text')

namespace Clipped

variable {c : Char} {text text' : List Char}

theorem append (front : List Char) (h : Clipped text text') :
    Clipped (front ++ text) (front ++ text') := by
  induction front with
  | nil => exact h
  | cons c front ih => exact .same ih

/-- A blank and more behind a text clip it. -/
theorem append_blank (h : isBlank c = true) (text more : List Char) :
    Clipped text (text ++ c :: more) := by
  have hblank : Clipped [] (c :: more) := .blank h
  simpa using hblank.append text

/-- Up to a blank, a clipped text is the same. -/
theorem exists_of_cons (h : Clipped text (c :: text')) (hc : isBlank c = false) :
    ∃ more, text = c :: more ∧ Clipped more text' := by
  cases h with
  | blank hb => simp [hc] at hb
  | same h => exact ⟨_, rfl, h⟩

/-- What does not go on with a class of characters does not when it is clipped, if no blank is in
    the class. -/
theorem stops {p : Char → Bool} (h : Clipped text text')
    (hp : [' ', '\t', '\r', '\n'].any p = false) (hstops : Stops p text) : Stops p text' := by
  cases h with
  | ends => exact stops_nil p
  | blank hb =>
    have hclass := List.any_eq_false.1 hp _ (isBlank_iff.1 hb)
    exact stops_cons.2 (Bool.eq_false_iff.2 hclass)
  | same _ => exact stops_cons.2 (stops_cons.1 hstops)

end Clipped

/-- The text behind a token may be clipped, but not behind a string that is never closed. -/
theorem Munched.clipped {m : Munch} {rest' : List Char} (h : Munched m)
    (hclosed : ¬ (m.kind = .error ∧ m.lexeme = unterminatedString)) (hrest : Clipped m.rest rest') :
    Munched { m with rest := rest' } := by
  cases h with
  | word hc hcs hs => exact .word hc hcs (hrest.stops (by decide) hs)
  | whole hd hs hp =>
    refine .whole hd (hrest.stops (by decide) hs) ?_
    -- A point that is left has the text behind it clipped too.
    rintro more rfl
    obtain ⟨more', rfl, hmore⟩ := hrest.exists_of_cons (by decide)
    exact hmore.stops (by decide) (hp more' rfl)
  | fraction hw hd hs => exact .fraction hw hd (hrest.stops (by decide) hs)
  | closed ht => exact .closed ht
  | unclosed ht => exact absurd ⟨rfl, rfl⟩ hclosed
  | delimiter => exact .delimiter
  | single hs => exact .single (hrest.stops (by decide) hs)
  | joined => exact .joined
  | unexpected hc => exact .unexpected hc

/-- A text with no gap at its front has none when it is clipped, unless at the front. -/
theorem splitGap_clipped {text text' : List Char} (h : splitGap false text = ([], text))
    (hclipped : Clipped text text') (hfront : Stops isBlank text') :
    splitGap false text' = ([], text') := by
  cases hclipped with
  | ends => rfl
  | blank hb => simp [stops_cons.1 hfront] at hb
  | @same c text text' hrest =>
    refine splitGap_of_not_blank (stops_cons.1 hfront) ?_
    rintro rfl more rfl
    obtain ⟨more', rfl, -⟩ := hrest.exists_of_cons (by decide)
    rw [splitGap_slashes] at h
    cases congrArg Prod.fst h

/-! ### The token at a cursor -/

/-- A token that is no error has the characters that it spans as its lexeme. -/
theorem Munched.lexeme_eq {m : Munch} (h : Munched m) (hk : m.kind ≠ .error) :
    m.lexeme = String.ofList m.span := by
  cases h with
  | unclosed _ => exact absurd rfl hk
  | unexpected _ => exact absurd rfl hk
  | _ => rfl

namespace Cursor

/-- Behind the gap at a cursor stands a token, or a complaint. -/
structure Shows (c : Cursor) (m : Munch) : Prop where
  munched : Munched m
  skipGap_eq : c.skipGap.text = m.span ++ m.rest
  span_ne_nil : m.span ≠ []
  token_eq : c.token
    = (⟨m.kind, m.lexeme, c.skipGap.position⟩, ⟨m.rest, c.skipGap.position.after m.span⟩)

/-- Any token but the end of the text is shown. -/
theorem exists_shows {c : Cursor} (h : c.token.1.kind ≠ .eof) : ∃ m, c.Shows m := by
  obtain ⟨ch, cs, hs⟩ := exists_skipGap_eq_of_ne_eof h
  exact ⟨munch ch cs, munched_munch ch cs, hs.trans (munch_append ch cs).symm,
    munch_span_ne_nil ch cs, token_of_cons hs⟩

namespace Shows

variable {c : Cursor} {m : Munch}

/-- What a cursor shows stands between the gap and the rest. -/
theorem text_eq (h : c.Shows m) : c.text = c.gap ++ m.span ++ m.rest := by
  rw [← c.longestGap_skipGap.append, h.skipGap_eq, List.append_assoc]

/-- It does not begin with a blank. -/
theorem exists_cons (h : c.Shows m) : ∃ ch cs, m.span = ch :: cs ∧ isBlank ch = false := by
  obtain ⟨ch, cs, hspan⟩ := List.exists_cons_of_ne_nil h.span_ne_nil
  have hskip := h.skipGap_eq
  rw [hspan] at hskip
  exact ⟨ch, cs, hspan, isBlank_of_skipGap hskip⟩

/-- Before the token, the gap is one whatever follows. -/
theorem isGap (h : c.Shows m) (rest : List Char) : Gap c.gap rest := by
  obtain ⟨ch, cs, hspan, -⟩ := h.exists_cons
  have hskip := h.skipGap_eq
  rw [hspan] at hskip
  exact c.longestGap_skipGap.isGap.of_not_endsLine (not_endsLine_skipGap hskip) rest

/-- Without the gap, and with the text behind it clipped, the token is still given. -/
theorem gives_clipped {rest' : List Char} (h : c.Shows m)
    (hclosed : ¬ (m.kind = .error ∧ m.lexeme = unterminatedString)) (hrest : Clipped m.rest rest')
    (position : Position) :
    Gives ⟨m.span ++ rest', position⟩ [⟨m.kind, m.lexeme, position⟩]
      ⟨rest', position.after m.span⟩ := by
  obtain ⟨ch, cs, hspan, hb⟩ := h.exists_cons
  have hgap : splitGap false (m.span ++ m.rest) = ([], m.span ++ m.rest) := by
    rw [← h.skipGap_eq]
    exact splitGap_splitGap c.text
  have hfront : Stops isBlank (m.span ++ rest') := by
    rw [hspan]
    exact stops_cons.2 hb
  exact gives_of_munched (h.munched.clipped hclosed hrest)
    (splitGap_clipped hgap (hrest.append m.span) hfront) position

end Shows

end Cursor

end Abacus
