import Abacus.Proofs.LineComposition
import Abacus.Proofs.TokenLog

namespace Abacus

/-!
# Asking a scanner

A scanner gives tokens in two ways. Both move the same cursor, but only one of them stops at the end
of the text. Copies can be made at any time and read to their end.

* `Cursor.current_scan`, `Cursor.tail_scan` — a token takes the front off what is scanned from a
  cursor on, and the end of the text takes nothing off.
* `Exchange` — a request to a scanner and its answer.
* `Scanner.Reached s source es` — a scanner was begun on a source text and asked for `es` since.
* `Scanner.Reached.behind`, `Scanner.Reached.finished_iff` — what it gave tells where it is, and
  whether it has stopped.
* `Scanner.Serves`, `Scanner.serves_of_reached` — so it tells all that the scanner will give.
-/

/-! ### One token -/

namespace Cursor

/-- The first token of a scan is the one at the cursor. -/
theorem current_scan (c : Cursor) : c.scan.current = c.token.1 := by
  by_cases hk : c.token.1.kind = .eof
  · have htoken := token_of_nil (skipGap_eq_nil_of_eof hk)
    rw [scan_of_eof hk, htoken]
    rfl
  · rw [scan_of_ne_eof hk, TokenStream.current_cons]

/-- Behind a token, what is left of the scan is scanned. At the end of the text the cursor moves
    over the last gap, and finds the end again. -/
theorem tail_scan (c : Cursor) : c.scan.tail = c.token.2.scan := by
  by_cases hk : c.token.1.kind = .eof
  · have htoken := token_of_nil (skipGap_eq_nil_of_eof hk)
    have hagain : c.token.2.scan = c.scan := by
      rw [htoken]
      exact scan_of_token_eq c.token_skipGap
    rw [hagain, scan_of_eof hk]
    rfl
  · rw [scan_of_ne_eof hk, TokenStream.tail_cons]

/-- A cursor is behind some tokens, which are the first ones of a stream. -/
structure Behind (c : Cursor) (s : TokenStream) (ts : List Token) : Prop where
  scan_eq : c.scan = s.drop ts.length
  eq_take : ts = s.take ts.length

/-- A cursor gives the token at the index at which it is. -/
theorem Behind.token_eq {c : Cursor} {s : TokenStream} {ts : List Token} (h : c.Behind s ts) :
    c.token.1 = s.get ts.length := by
  rw [← current_scan, h.scan_eq, TokenStream.current_drop]

/-- Behind one more token, one more token has been taken. -/
theorem Behind.concat {c : Cursor} {s : TokenStream} {ts : List Token} (h : c.Behind s ts) :
    c.token.2.Behind s (ts ++ [c.token.1]) := by
  have hlast : (s.drop ts.length).take 1 = [c.token.1] := by
    rw [h.token_eq, TokenStream.take_succ, TokenStream.current_drop]
    rfl
  constructor
  · rw [List.length_append, List.length_singleton, ← tail_scan, h.scan_eq,
      TokenStream.tail_eq_drop, TokenStream.drop_drop]
  · rw [List.length_append, List.length_singleton, TokenStream.take_add, ← h.eq_take, hlast]

end Cursor

/-! ### Requests -/

/-- What a scanner is asked for, with its answer. -/
inductive Exchange where
  /-- A token, whether or not the end of the text was given before. -/
  | scan (token : Token)
  /-- The next token, until the end of the text has been given once. -/
  | next (token : Option Token)
  /-- All tokens of a copy, which is asked for the next one until there is none. -/
  | copy (tokens : List Token)

namespace Exchange

/-- The token that is handed out; what a copy gives does not count. -/
def token? : Exchange → Option Token
  | scan t => some t
  | next t => t
  | copy _ => none

/-- The end of the text is given as the next token. -/
def GivesEnd : Exchange → Prop
  | next (some t) => t.kind = .eof
  | next none | scan _ | copy _ => False

end Exchange

/-- The tokens that are handed out, one after the other. -/
def handedOut (es : List Exchange) : List Token := es.filterMap Exchange.token?

/-- The end of the text was given as the next token. -/
def GaveEnd (es : List Exchange) : Prop := ∃ e ∈ es, e.GivesEnd

theorem handedOut_concat (es : List Exchange) (e : Exchange) :
    handedOut (es ++ [e]) = handedOut es ++ e.token?.toList := by
  rw [handedOut, List.filterMap_append]
  cases h : e.token? <;> simp [handedOut, h]

theorem gaveEnd_concat {es : List Exchange} {e : Exchange} :
    GaveEnd (es ++ [e]) ↔ GaveEnd es ∨ e.GivesEnd := by
  simp [GaveEnd, or_and_right, exists_or]

namespace Scanner

/-- A scanner that was begun on a source text, with what was exchanged since then. A copy that is
    read leaves the scanner alone. -/
inductive Reached : Scanner → (source : String) → List Exchange → Prop where
  | new (source : String) : Reached (ofSource source) source []
  | reset {s : Scanner} {old : String} {es : List Exchange} (source : String) :
      Reached s old es → Reached (s.reset source) source []
  | scan {s : Scanner} {source : String} {es : List Exchange} :
      Reached s source es → Reached s.scanToken.2 source (es ++ [.scan s.scanToken.1])
  | next {s : Scanner} {source : String} {es : List Exchange} :
      Reached s source es → Reached s.next?.2 source (es ++ [.next s.next?.1])
  | copy {s : Scanner} {source : String} {es : List Exchange} {ts : List Token} :
      Reached s source es → s.Yields ts → Reached s source (es ++ [.copy ts])

/-- A scanner that is finished gives nothing and stays as it is. -/
theorem next?_of_finished {s : Scanner} (h : s.finished = true) : s.next? = (none, s) := if_pos h

/-- Any other gives the next token, and is finished if that ends the text. -/
theorem next?_of_finished_eq_false {s : Scanner} (h : s.finished = false) :
    s.next? = (some s.scanToken.1,
      { s.scanToken.2 with finished := s.scanToken.1.kind = .eof }) := by
  rw [next?, if_neg (by simp [h])]

/-- The next token is refused once the scanner has stopped, and only then. -/
theorem next?_eq_none_iff {s : Scanner} : s.next?.1 = none ↔ s.finished = true := by
  cases hf : s.finished with
  | true => simp [next?_of_finished hf]
  | false => simp [next?_of_finished_eq_false hf]

/-- A scanner gives nothing more once it has stopped, and all tokens from its cursor on before. -/
theorem yields_iff (s : Scanner) (ts : List Token) : s.Yields ts ↔ ts = s.remaining := by
  have hyields : s.Yields s.remaining := by
    obtain ⟨cursor, finished⟩ := s
    cases finished with
    | false => exact yields_scan cursor
    | true => exact .done rfl
  constructor
  · exact fun h => h.unique hyields
  · rintro rfl
    exact hyields

namespace Reached

variable {s : Scanner} {source : String} {es : List Exchange}

/-- The cursor is behind the tokens that were handed out. -/
theorem behind (h : Reached s source es) :
    s.cursor.Behind (Abacus.scan source) (handedOut es) := by
  induction h with
  | new source => exact ⟨rfl, rfl⟩
  | reset source _ _ => exact ⟨rfl, rfl⟩
  | scan _ ih =>
    rw [handedOut_concat]
    exact ih.concat
  | @next s _ _ _ ih =>
    rw [handedOut_concat]
    cases hf : s.finished with
    | true =>
      rw [next?_of_finished hf]
      simpa [Exchange.token?] using ih
    | false =>
      rw [next?_of_finished_eq_false hf]
      exact ih.concat
  | copy _ _ ih =>
    rw [handedOut_concat]
    simpa [Exchange.token?] using ih

/-- Only the end of the text, given as the next token, makes a scanner stop. -/
theorem finished_iff (h : Reached s source es) : s.finished = true ↔ GaveEnd es := by
  induction h with
  | new source => simp [ofSource, GaveEnd]
  | reset source _ _ => simp [Scanner.reset, ofSource, GaveEnd]
  | scan _ ih =>
    rw [gaveEnd_concat]
    simpa [Exchange.GivesEnd, scanToken] using ih
  | @next s _ _ _ ih =>
    rw [gaveEnd_concat, ← ih]
    cases hf : s.finished with
    | true => simp [next?_of_finished hf, hf]
    | false => simp [next?_of_finished_eq_false hf, Exchange.GivesEnd]
  | copy _ _ ih =>
    rw [gaveEnd_concat]
    simpa [Exchange.GivesEnd] using ih

end Reached

/-- What a scanner gives after some exchanges about a source text. Either request gives the token of
    the endless stream that comes behind those handed out, which are the first ones. The next token
    is refused if and only if the end of the text was given as the next token before, and then
    nothing changes; to ask for a token in the other way never leads to that. A copy gives what is
    left of the stream, up to the first end of the text. -/
structure Serves (s : Scanner) (source : String) (es : List Exchange) : Prop where
  handedOut_eq : handedOut es = (Abacus.scan source).take (handedOut es).length
  scan_eq : s.scanToken.1 = (Abacus.scan source).get (handedOut es).length
  scan_finished : s.scanToken.2.finished = s.finished
  next_eq : ∀ t, s.next?.1 = some t → t = (Abacus.scan source).get (handedOut es).length
  next_eq_none_iff : s.next?.1 = none ↔ GaveEnd es
  next_unchanged : s.next?.1 = none → s.next?.2 = s
  finished_iff : s.finished = true ↔ GaveEnd es
  copy_of_gaveEnd : GaveEnd es → ∀ ts, s.Yields ts ↔ ts = []
  copy_of_not_gaveEnd : ¬ GaveEnd es →
    ∀ ts, s.Yields ts ↔ ts = ((Abacus.scan source).drop (handedOut es).length).toList

/-- **Requests can be mixed freely.** Whatever a scanner was asked for since it was begun, and in
    whatever order, its answers are those of the endless stream. -/
theorem serves_of_reached {s : Scanner} {source : String} {es : List Exchange}
    (h : Reached s source es) : s.Serves source es := by
  have hbehind := h.behind
  have hfinished := h.finished_iff
  constructor
  case handedOut_eq => exact hbehind.eq_take
  case scan_eq => exact hbehind.token_eq
  case scan_finished => rfl
  case next_eq =>
    intro t ht
    cases hf : s.finished with
    | true =>
      rw [next?_of_finished hf] at ht
      cases ht
    | false =>
      rw [next?_of_finished_eq_false hf, Option.some.injEq] at ht
      rw [← ht]
      exact hbehind.token_eq
  case next_eq_none_iff => rw [next?_eq_none_iff, hfinished]
  case next_unchanged =>
    intro hnone
    rw [next?_of_finished (next?_eq_none_iff.1 hnone)]
  case finished_iff => exact hfinished
  case copy_of_gaveEnd =>
    intro hend ts
    rw [yields_iff, remaining, if_pos (hfinished.2 hend)]
  case copy_of_not_gaveEnd =>
    intro hend ts
    rw [yields_iff, remaining, if_neg (mt hfinished.1 hend), hbehind.scan_eq]

/-- A scanner that was begun on `7` in place of another text and came to its end by plain requests
    still gives the end as the next token, once. -/
theorem serves_of_reached_again :
    ∃ s es, Reached s "7" es ∧ s.Serves "7" es ∧
      (handedOut es).map (fun t => (t.kind, t.position.column))
        = [(.number, 1), (.eof, 2), (.eof, 2)] ∧
      s.next?.1 = none ∧ s.Yields [] := by
  have hreached := (((((Reached.new "(2").scan.reset "7").scan).scan).next).next
  have hserves := serves_of_reached hreached
  have hend : GaveEnd _ := hserves.finished_iff.1 (by decide +kernel)
  refine ⟨_, _, hreached, hserves, by decide +kernel, hserves.next_eq_none_iff.2 hend, ?_⟩
  exact (hserves.copy_of_gaveEnd hend []).2 rfl

end Scanner

end Abacus
