import Mathlib.Data.List.DropRight
import Abacus.Proofs.Gap
import Abacus.Proofs.Munching

namespace Abacus

/-!
# Tokens tile their source

Gaps and the spans of tokens make up a source text, and every token knows where its span begins.

* `Position.behind` — the place behind a text, by counting its lines and characters.
* `Scanner.Yields s ts` — asked again and again, the scanner `s` gives the tokens `ts`, then none.
* `Token.Spans` — what a token says about the characters that it spans.
* `Laid before tiles last` — tiles of gaps and spans lie behind a text `before`.
* `Scanner.yields_tiles` — the tokens of a source text are those of tiles that make it up.
-/

/-! ### Positions -/

namespace Position

/-- The place behind a text: the line is one more than the newlines in the text, and the column one
    more than the characters behind the last of them. -/
def behind (text : List Char) : Position where
  line := 1 + text.count '\n'
  column := 1 + (text.rtakeWhile (· != '\n')).length

/-- The place that is reached character by character is the one that is counted. -/
theorem after_start (text : List Char) : start.after text = behind text := by
  induction text using List.reverseRecOn with
  | nil => rfl
  | append_singleton text c ih =>
    rw [after_append, ih, after_cons, after_nil, behind, behind, List.count_append]
    by_cases hc : c = '\n'
    · subst hc
      rw [next_newline, List.rtakeWhile_concat_neg _ _ _ (by simp)]
      rfl
    · have hcount : List.count '\n' [c] = 0 := List.count_eq_zero.2 (by simpa using Ne.symm hc)
      rw [next_of_ne _ hc, List.rtakeWhile_concat_pos _ _ _ (by simpa using hc), hcount,
        List.length_append]
      rfl

/-- The position behind two texts is the one behind the second from where the first ends. -/
theorem behind_append (text more : List Char) :
    behind (text ++ more) = (behind text).after more := by
  rw [← after_start, ← after_start, after_append]

end Position

/-! ### The tokens that a scanner gives -/

namespace Scanner

/-- A scanner that is asked for the next token until there is none gives some tokens. -/
inductive Yields : Scanner → List Token → Prop where
  | done {s : Scanner} : s.next?.1 = none → Yields s []
  | more {s : Scanner} {t : Token} {ts : List Token} :
      s.next?.1 = some t → Yields s.next?.2 ts → Yields s (t :: ts)

/-- It always gives the same ones. -/
theorem Yields.unique {s : Scanner} {ts us : List Token} (h : s.Yields ts) (h' : s.Yields us) :
    ts = us := by
  induction h generalizing us with
  | done hnone =>
    cases h' with
    | done _ => rfl
    | more hsome _ => rw [hnone] at hsome; cases hsome
  | more hsome _ ih =>
    cases h' with
    | done hnone => rw [hnone] at hsome; cases hsome
    | more hsome' h' =>
      rw [hsome, Option.some.injEq] at hsome'
      rw [hsome', ih h']

end Scanner

namespace Cursor

/-- The end of the text is found only where nothing stands behind the gap. -/
theorem skipGap_eq_nil_of_eof {c : Cursor} (h : c.token.1.kind = .eof) : c.skipGap.text = [] := by
  cases hs : c.skipGap.text with
  | nil => rfl
  | cons ch cs =>
    rw [token_of_cons hs] at h
    exact absurd h (munch_kind ch cs).1

/-- Where a token is not the end of the text, something stands behind the gap. -/
theorem exists_skipGap_eq_of_ne_eof {c : Cursor} (h : c.token.1.kind ≠ .eof) :
    ∃ ch cs, c.skipGap.text = ch :: cs := by
  refine List.exists_cons_of_ne_nil ?_
  intro hs
  rw [token_of_nil hs] at h
  exact h rfl

end Cursor

namespace Scanner

theorem next?_of_not_finished (c : Cursor) :
    next? ⟨c, false⟩ = (some c.token.1, ⟨c.token.2, c.token.1.kind = .eof⟩) := rfl

/-- A scanner gives all tokens from its cursor on, up to the first end of the text. -/
theorem yields_scan (c : Cursor) : Yields ⟨c, false⟩ c.scan.toList := by
  fun_induction Cursor.scan c with
  | case1 c hne _ ih =>
    refine .more (congrArg Prod.fst (next?_of_not_finished c)) ?_
    rw [next?_of_not_finished, decide_eq_false hne]
    exact ih
  | case2 c heof =>
    rw [not_not] at heof
    have htoken := Cursor.token_of_nil (Cursor.skipGap_eq_nil_of_eof heof)
    refine .more ?_ ?_
    · rw [next?_of_not_finished, htoken]
      rfl
    · rw [next?_of_not_finished, heof]
      exact .done rfl

end Scanner

/-! ### Spans -/

/-- What a token tells about the characters that it spans, given those behind them. A token has them
    as its lexeme. A complaint is about one character, or about a quote that is never closed. -/
inductive Token.Spans (t : Token) : (span rest : List Char) → Prop where
  | plain {span rest : List Char} :
      t.kind ≠ .error → t.kind ≠ .eof → span ≠ [] → t.lexeme = String.ofList span →
        Spans t span rest
  | unexpected {c : Char} {rest : List Char} :
      t.kind = .error → t.lexeme = "Unexpected character." → Spans t [c] rest
  | unterminated {text : List Char} :
      t.kind = .error → t.lexeme = "Unterminated string." → '"' ∉ text → Spans t ('"' :: text) []

/-- No token spans an empty text. -/
theorem Token.Spans.ne_nil {t : Token} {span rest : List Char} (h : t.Spans span rest) :
    span ≠ [] := by
  cases h with
  | plain _ _ hne _ => exact hne
  | unexpected _ _ => exact List.cons_ne_nil _ _
  | unterminated _ _ _ => exact List.cons_ne_nil _ _

/-- What stands at the front of a text spans characters as its token tells. -/
theorem spans_munch (c : Char) (cs : List Char) (position : Position) :
    Token.Spans ⟨(munch c cs).kind, (munch c cs).lexeme, position⟩ (munch c cs).span
      (munch c cs).rest := by
  have hne := munch_span_ne_nil c cs
  have heof := (munch_kind c cs).1
  have hm := munched_munch c cs
  generalize munch c cs = m at hne heof hm ⊢
  cases hm with
  | unclosed hq => exact .unterminated rfl rfl hq
  | unexpected _ => exact .unexpected rfl rfl
  | @word c cs _ _ _ _ =>
    refine .plain ?_ heof hne rfl
    rcases wordKind_cases (c :: cs) with ⟨k, -, hk⟩ | ⟨-, hk⟩
    · simp [hk]
    · simp [hk]
  | _ => exact .plain (by simp) heof hne rfl

/-! ### Tiles -/

/-- A token with the gap before it and the characters that it spans. -/
structure Tile where
  gap : List Char
  span : List Char
  token : Token

/-- The characters of a tile. -/
def Tile.text (tile : Tile) : List Char := tile.gap ++ tile.span

/-- A tile fits between two texts: it begins with a gap, its token spans the rest of it, and the
    token's position is counted from the beginning of the source to the span. -/
structure Tile.Fits (before : List Char) (tile : Tile) (rest : List Char) : Prop where
  gap : Gap tile.gap (tile.span ++ rest)
  span : tile.token.Spans tile.span rest
  position : tile.token.position = .behind (before ++ tile.gap)

/-- The characters of tiles behind each other, and of a last gap. -/
def tiledText (tiles : List Tile) (last : List Char) : List Char := tiles.flatMap Tile.text ++ last

theorem tiledText_cons (tile : Tile) (tiles : List Tile) (last : List Char) :
    tiledText (tile :: tiles) last = tile.text ++ tiledText tiles last :=
  List.append_assoc ..

/-- Tiles lie behind each other from the end of a text on, up to a last gap that ends the source. -/
def Laid : (before : List Char) → List Tile → (last : List Char) → Prop
  | _, [], last => Gap last []
  | before, tile :: tiles, last =>
    tile.Fits before (tiledText tiles last) ∧ Laid (before ++ tile.text) tiles last

/-- Tokens are those of tiles that make up a text, and then the end of the text. -/
def TiledBy (text : List Char) (tokens : List Token) : Prop :=
  ∃ tiles last, tiledText tiles last = text ∧ Laid [] tiles last ∧
    tokens = tiles.map Tile.token ++ [⟨.eof, "", .behind text⟩]

/-- There are no more tiles than characters, for each spans one at least. -/
theorem Laid.length_le {before : List Char} {tiles : List Tile} {last : List Char}
    (h : Laid before tiles last) : tiles.length ≤ (tiledText tiles last).length := by
  induction tiles generalizing before with
  | nil => exact Nat.zero_le _
  | cons tile tiles ih =>
    have hspan := List.length_pos_iff.2 h.1.span.ne_nil
    have hrest := ih h.2
    rw [tiledText_cons, Tile.text, List.length_append, List.length_append, List.length_cons]
    omega

namespace Cursor

variable {c : Cursor} {before : List Char}

/-- One token takes a tile off the text that is left. -/
theorem exists_tile (hp : c.position = .behind before) (hne : c.token.1.kind ≠ .eof) :
    ∃ tile : Tile, tile.token = c.token.1 ∧ tile.text ++ c.token.2.text = c.text ∧
      tile.Fits before c.token.2.text ∧ c.token.2.position = .behind (before ++ tile.text) := by
  obtain ⟨ch, cs, hs⟩ := exists_skipGap_eq_of_ne_eof hne
  have hgap := c.longestGap_skipGap
  have hspan := munch_append ch cs
  have hstart : c.skipGap.position = .behind (before ++ c.gap) := by
    rw [skipGap_position, hp, Position.behind_append]
  rw [hs, ← hspan] at hgap
  refine ⟨⟨c.gap, (munch ch cs).span, c.token.1⟩, rfl, ?_⟩
  rw [token_of_cons hs]
  refine ⟨?_, ⟨hgap.isGap, spans_munch ch cs _, hstart⟩, ?_⟩
  · rw [Tile.text, List.append_assoc]
    exact hgap.append
  · rw [Tile.text, ← List.append_assoc, Position.behind_append, ← hstart]

/-- The tokens from a cursor on tile what is left of the text. -/
theorem exists_laid (hp : c.position = .behind before) :
    ∃ tiles last, tiledText tiles last = c.text ∧ Laid before tiles last ∧
      c.scan.toList = tiles.map Tile.token ++ [⟨.eof, "", .behind (before ++ c.text)⟩] := by
  fun_induction Cursor.scan c generalizing before with
  | case1 c hne _ ih =>
    obtain ⟨tile, htoken, htext, hfits, hnext⟩ := exists_tile hp hne
    obtain ⟨tiles, last, hrest, hlaid, hscan⟩ := ih hnext
    refine ⟨tile :: tiles, last, ?_, ⟨?_, hlaid⟩, ?_⟩
    · rw [tiledText_cons, hrest, htext]
    · rw [hrest]
      exact hfits
    · rw [TokenStream.toList_cons, hscan, ← htoken, ← htext, List.append_assoc]
      rfl
  | case2 c heof =>
    -- Nothing is left but a gap.
    rw [not_not] at heof
    have hs := skipGap_eq_nil_of_eof heof
    have hgap := c.longestGap_skipGap
    rw [hs] at hgap
    have htext : c.gap = c.text := (List.append_nil _).symm.trans hgap.append
    refine ⟨[], c.gap, htext, hgap.isGap, ?_⟩
    show [Token.mk .eof "" c.token.1.position] = _
    rw [token_of_nil hs, skipGap_position, hp, ← Position.behind_append, htext]
    rfl

end Cursor

/-- **The tokens tile the source.** Asked for token after token, a scanner gives those of tiles that
    make up the source text, and then the end of the text once, at its end. So it gives at most one
    token more than there are characters. -/
theorem Scanner.yields_tiles (source : String) :
    ∃ tokens, (∀ ts, (ofSource source).Yields ts ↔ ts = tokens) ∧ TiledBy source.toList tokens ∧
      tokens.length ≤ source.length + 1 := by
  have hyields := yields_scan (.ofSource source)
  have hstart : (Cursor.ofSource source).position = .behind [] := rfl
  obtain ⟨tiles, last, htext, hlaid, hscan⟩ := Cursor.exists_laid hstart
  refine ⟨_, fun ts => ⟨fun h => h.unique hyields, ?_⟩, ⟨tiles, last, htext, hlaid, hscan⟩, ?_⟩
  · rintro rfl
    exact hyields
  · have hle := hlaid.length_le
    rw [htext] at hle
    have hlength : (Cursor.ofSource source).text.length = source.length := String.length_toList
    rw [hscan, List.length_append, List.length_map]
    simp only [List.length_singleton]
    omega

end Abacus
