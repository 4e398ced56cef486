import Abacus.Proofs.Rendering
import Abacus.Proofs.TokenEnds

namespace Abacus

/-!
# Texts line by line

Nothing but an open string reaches over the end of a line, so texts on lines of their own can be
scanned one by one.

* `Gap.before_newline` — a gap up to the end of a text is one when a newline follows, which ends its
  last comment.
* `Cursor.Gives.before_newline` — tokens are given in the same way when a newline and more follows.
* `Cursor.scan_lower` — further down, the same tokens are scanned.
* `scan_append_newline` — what this means for two texts.
-/

/-! ### Before a newline -/

/-- A gap that ends a text is one with a newline behind it too. -/
theorem Gap.before_newline {gap : List Char} (h : Gap gap []) (more : List Char) :
    Gap (gap ++ ['\n']) more := by
  obtain ⟨rest, hrest⟩ : ∃ rest : List Char, rest = [] := ⟨[], rfl⟩
  rw [← hrest] at h
  induction h with
  | nil => exact .blank (by simp) .nil
  | blank hb _ ih => exact .blank hb (ih hrest)
  | @comment line gap rest hline hends _ ih =>
    have hends' : EndsLine (gap ++ ['\n'] ++ more) := by
      rw [hrest, List.append_nil] at hends
      rcases hends with rfl | ⟨text, rfl⟩
      · exact .inr ⟨more, rfl⟩
      · exact .inr ⟨_, rfl⟩
    rw [List.append_assoc]
    exact .comment hline hends' (ih hrest)

namespace Cursor

/-- Only the next token matters. -/
theorem scan_of_token_eq {c d : Cursor} (h : c.token = d.token) : c.scan = d.scan := by
  by_cases hk : d.token.1.kind = .eof
  · rw [scan_of_eof hk, scan_of_eof (h ▸ hk), h]
  · rw [scan_of_ne_eof hk, scan_of_ne_eof (h ▸ hk), h]

namespace Gives

variable {c c' : Cursor} {ts : List Token}

/-- Whatever is given, all of the text leads to the same place. -/
theorem after_text (h : Gives c ts c') : c'.position.after c'.text = c.position.after c.text := by
  induction h with
  | nil => rfl
  | cons hk _ ih =>
    obtain ⟨m, hm⟩ := exists_shows hk
    rw [ih, hm.token_eq, hm.text_eq, skipGap_position, Position.after_append,
      Position.after_append]

/-- Tokens are given in the same way when a newline and more follows, unless a string is open
    there. -/
theorem before_newline (h : Gives c ts c')
    (hclosed : ∀ t ∈ ts, ¬ (t.kind = .error ∧ t.lexeme = unterminatedString)) (more : List Char) :
    Gives ⟨c.text ++ '\n' :: more, c.position⟩ ts ⟨c'.text ++ '\n' :: more, c'.position⟩ := by
  induction h with
  | nil => exact .nil
  | @cons c c' ts hk _ ih =>
    obtain ⟨m, hm⟩ := exists_shows hk
    rw [List.forall_mem_cons] at hclosed
    have hrest := ih hclosed.2
    rw [hm.token_eq] at hclosed hrest ⊢
    have hclipped : Clipped m.rest (m.rest ++ '\n' :: more) := .append_blank rfl m.rest more
    have hfirst := hm.gives_clipped hclosed.1 hclipped c.skipGap.position
    have hall := (hfirst.trans hrest).of_token_eq (List.cons_ne_nil _ _)
      (token_gap (hm.isGap _) c.position)
    rw [hm.text_eq]
    simpa using hall

end Gives

/-- Where no token is left, the scan goes on behind the newline. -/
theorem scan_newline {c : Cursor} (h : c.scan.body = []) (more : List Char) :
    scan ⟨c.text ++ '\n' :: more, c.position⟩
      = scan ⟨more, (c.position.after c.text).next '\n'⟩ := by
  have htoken := token_gap ((gap_of_scan_body_eq_nil h).before_newline more) c.position
  rw [List.append_assoc, Position.after_append] at htoken
  exact scan_of_token_eq htoken

end Cursor

/-! ### Further down -/

/-- The place a number of lines further down, in the same column. -/
def Position.lower (lines : Nat) (p : Position) : Position := { p with line := p.line + lines }

/-- The token a number of lines further down. -/
def Token.lower (lines : Nat) (t : Token) : Token := { t with position := t.position.lower lines }

/-- Moving on commutes with moving down. -/
theorem Position.next_lower (lines : Nat) (p : Position) (c : Char) :
    (p.lower lines).next c = (p.next c).lower lines := by
  by_cases hc : c = '\n'
  · subst hc
    simp [lower]
    omega
  · rw [next_of_ne _ hc, next_of_ne _ hc]
    rfl

theorem Position.after_lower (lines : Nat) (p : Position) (text : List Char) :
    (p.lower lines).after text = (p.after text).lower lines := by
  induction text generalizing p with
  | nil => rfl
  | cons c text ih => rw [after_cons, next_lower, ih, after_cons]

/-- Behind a text and a newline, a line begins below all lines of the text. -/
theorem Position.next_newline_after_start (text : List Char) :
    (start.after text).next '\n' = start.lower (text.count '\n' + 1) := by
  rw [after_start, next_newline, behind, lower, start, Nat.add_assoc]

namespace Cursor

/-- The cursor before the same text a number of lines further down. -/
def lower (lines : Nat) (c : Cursor) : Cursor := { c with position := c.position.lower lines }

/-- A gap is skipped further down as it is further up. -/
theorem skipGap_lower (lines : Nat) (c : Cursor) :
    (c.lower lines).skipGap = c.skipGap.lower lines := by
  simp only [skipGap, lower, Position.after_lower]

/-- A token is found further down as it is further up. -/
theorem token_lower (lines : Nat) (c : Cursor) :
    (c.lower lines).token = (c.token.1.lower lines, c.token.2.lower lines) := by
  cases hs : c.skipGap.text with
  | nil =>
    have hs' : (c.lower lines).skipGap.text = [] := by rw [skipGap_lower]; exact hs
    rw [token_of_nil hs, token_of_nil hs', skipGap_lower]
    rfl
  | cons ch cs =>
    have hs' : (c.lower lines).skipGap.text = ch :: cs := by rw [skipGap_lower]; exact hs
    rw [token_of_cons hs, token_of_cons hs', skipGap_lower]
    simp only [lower, Position.after_lower, Token.lower]

/-- Further down, the same tokens are scanned. -/
theorem scan_lower (lines : Nat) (c : Cursor) :
    (c.lower lines).scan.toList = c.scan.toList.map (Token.lower lines) := by
  fun_induction Cursor.scan c with
  | case1 c hne _ ih =>
    have htoken := c.token_lower lines
    have hne' : (c.lower lines).token.1.kind ≠ .eof := by rw [htoken]; exact hne
    rw [scan_of_ne_eof hne', htoken, TokenStream.toList_cons, TokenStream.toList_cons, ih,
      List.map_cons]
  | case2 c heof =>
    rw [not_not] at heof
    have htoken := c.token_lower lines
    have heof' : (c.lower lines).token.1.kind = .eof := by rw [htoken]; exact heof
    rw [scan_of_eof heof', htoken]
    rfl

end Cursor

/-! ### Two texts -/

/-- **Scanning goes line by line.** A text without an open string is scanned by itself, and what
    stands on the lines below it by itself too. -/
theorem scan_append_newline (a b : String)
    (h : ∀ t ∈ (scan a).toList, ¬ (t.kind = .error ∧ t.lexeme = "Unterminated string.")) :
    (scan (a ++ "\n" ++ b)).toList
      = (scan a).toList.dropLast
        ++ (scan b).toList.map (Token.lower (a.toList.count '\n' + 1)) := by
  have hbody : (scan a).toList.dropLast = (scan a).body := List.dropLast_concat
  have hclosed : ∀ t ∈ (scan a).body, ¬ (t.kind = .error ∧ t.lexeme = unterminatedString) :=
    fun t ht => h t (List.mem_append_left _ ht)
  obtain ⟨c, hgives, hnone⟩ := Cursor.exists_gives_of_scan_body
    (show (Cursor.ofSource a).scan.body = (scan a).body ++ [] from (List.append_nil _).symm)
  have hsource : Cursor.ofSource (a ++ "\n" ++ b) = ⟨a.toList ++ '\n' :: b.toList, .start⟩ := by
    simp [Cursor.ofSource]
  have hplace : (c.position.after c.text).next '\n' = .lower (a.toList.count '\n' + 1) .start := by
    rw [hgives.after_text]
    exact Position.next_newline_after_start a.toList
  calc (scan (a ++ "\n" ++ b)).toList
      = (Cursor.scan ⟨a.toList ++ '\n' :: b.toList, .start⟩).toList := by rw [scan, hsource]
    _ = (scan a).body ++ (Cursor.scan ⟨c.text ++ '\n' :: b.toList, c.position⟩).toList :=
        (hgives.before_newline hclosed b.toList).scan_toList
    _ = (scan a).body
          ++ ((Cursor.ofSource b).lower (a.toList.count '\n' + 1)).scan.toList := by
        rw [Cursor.scan_newline hnone, hplace]
        rfl
    _ = (scan a).toList.dropLast
          ++ (scan b).toList.map (Token.lower (a.toList.count '\n' + 1)) := by
        rw [Cursor.scan_lower, hbody]
        rfl

/-- A string may hold a newline, while a comment and a number's point end with their line. -/
theorem scan_append_newline_mixed :
    (∀ t ∈ (scan "\"a\nb\" 1. // c").toList,
        ¬ (t.kind = .error ∧ t.lexeme = "Unterminated string.")) ∧
      (scan ("\"a\nb\" 1. // c" ++ "\n" ++ "2.5@")).toList
        = (scan "\"a\nb\" 1. // c").toList.dropLast
          ++ (scan "2.5@").toList.map (Token.lower 2) := by
  have hclosed : ∀ t ∈ (scan "\"a\nb\" 1. // c").toList,
      ¬ (t.kind = .error ∧ t.lexeme = "Unterminated string.") := by decide +kernel
  exact ⟨hclosed, scan_append_newline _ _ hclosed⟩

end Abacus
