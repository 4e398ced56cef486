import Abacus.Token.Stream
import Abacus.Token.Munch

namespace Abacus

/-!
# Scanning a text

* `Cursor` — text still to be read, and where it begins.
* `Cursor.token` — the next token; at the end of the text it is always the end.
* `Cursor.scan` — all tokens from a cursor on.
* `scan` — all tokens of a source text.
* `Scanner` — a cursor that can also be read token by token up to the first end of the text.
-/

/-- Text still to be read, and where it begins. -/
structure Cursor where
  text : List Char
  position : Position

namespace Cursor

/-- A cursor at the beginning of a source text. -/
def ofSource (source : String) : Cursor := ⟨source.toList, .start⟩

/-- The cursor behind the blanks and comments that stand here. -/
def skipGap (c : Cursor) : Cursor :=
  ⟨(splitGap false c.text).2, c.position.after (splitGap false c.text).1⟩

/-- The next token and the cursor behind it. -/
def token (c : Cursor) : Token × Cursor :=
  let start := c.skipGap.position
  match c.skipGap.text with
  | [] => (⟨.eof, "", start⟩, c.skipGap)
  | ch :: cs =>
    let m := munch ch cs
    (⟨m.kind, m.lexeme, start⟩, ⟨m.rest, start.after m.span⟩)

/-- Every token but the end of the text takes something off the text. -/
theorem length_token_lt {c : Cursor} (h : c.token.1.kind ≠ .eof) :
    c.token.2.text.length < c.text.length := by
  have hgap : c.skipGap.text.length ≤ c.text.length := length_splitGap_le false c.text
  unfold token at h ⊢
  split at h
  · exact absurd rfl h
  · next ch cs heq =>
    have := length_munch_rest ch cs
    simp only [heq, List.length_cons] at hgap ⊢
    omega

/-- All tokens from here on. -/
def scan (c : Cursor) : TokenStream :=
  if h : c.token.1.kind ≠ .eof then
    have := length_token_lt h
    (scan c.token.2).cons c.token.1
  else
    ⟨[], c.token.1.position⟩
termination_by c.text.length

theorem scan_of_eof {c : Cursor} (h : c.token.1.kind = .eof) :
    c.scan = ⟨[], c.token.1.position⟩ := by
  rw [scan, dif_neg (not_not_intro h)]

theorem scan_of_ne_eof {c : Cursor} (h : c.token.1.kind ≠ .eof) :
    c.scan = c.token.2.scan.cons c.token.1 := by
  rw [scan, dif_pos h]

end Cursor

/-- All tokens of a source text. -/
def scan (source : String) : TokenStream := (Cursor.ofSource source).scan

/-- A cursor together with whether a reader of successive tokens has been given the end of the
    text. -/
structure Scanner where
  cursor : Cursor
  finished : Bool := false

namespace Scanner

/-- A scanner at the beginning of a source text. -/
def ofSource (source : String) : Scanner := { cursor := .ofSource source }

/-- The scanner begun again, on another source text. -/
def reset (_ : Scanner) (source : String) : Scanner := .ofSource source

/-- The next token, whether or not the end was already given. -/
def scanToken (s : Scanner) : Token × Scanner :=
  (s.cursor.token.1, { s with cursor := s.cursor.token.2 })

/-- The next token, until the end of the text has been given once. -/
def next? (s : Scanner) : Option Token × Scanner :=
  if s.finished then (none, s)
  else
    let (t, after) := s.scanToken
    (some t, { after with finished := t.kind = .eof })

/-- The tokens that `next?` would still give. -/
def remaining (s : Scanner) : List Token := if s.finished then [] else s.cursor.scan.toList

end Scanner

end Abacus
