import Mathlib.Data.Prod.Lex
import Abacus.Proofs.Tiling

namespace Abacus

/-!
# The order of positions

A text is read line by line, and in a line column by column.

* `Position.lt_after` — reading on leads to a later position.
* `Position.behind_inj` — a position in a text tells what stands before it.
* `Cursor.pairwise_scan` — every token stands behind those before it.
* `TokenStream.position_get_mono` — also in the endless stream.
-/

namespace Position

/-- Positions are ordered by their lines, and in a line by their columns. -/
instance : LinearOrder Position :=
  LinearOrder.lift' (fun p => toLex (p.line, p.column)) <| by
    rintro ⟨line, column⟩ ⟨line', column'⟩ h
    obtain ⟨rfl, rfl⟩ := Prod.mk.inj (toLex.injective h)
    rfl

/-- A position is before another on an earlier line, or on the same line further left. -/
theorem lt_iff {p q : Position} :
    p < q ↔ p.line < q.line ∨ p.line = q.line ∧ p.column < q.column :=
  Prod.Lex.toLex_lt_toLex

/-- Every character moves the position on. -/
theorem lt_next (p : Position) (c : Char) : p < p.next c := by
  rw [lt_iff]
  by_cases hc : c = '\n'
  · subst hc
    exact .inl (Nat.lt_succ_self _)
  · rw [next_of_ne p hc]
    exact .inr ⟨rfl, Nat.lt_succ_self _⟩

/-- A text never moves the position back. -/
theorem le_after (p : Position) (text : List Char) : p ≤ p.after text := by
  induction text generalizing p with
  | nil => exact le_refl p
  | cons c text ih => exact (p.lt_next c).le.trans (ih (p.next c))

/-- A text that is not empty moves the position on. -/
theorem lt_after (p : Position) {text : List Char} (h : text ≠ []) : p < p.after text := by
  obtain ⟨c, text, rfl⟩ := List.exists_cons_of_ne_nil h
  exact (p.lt_next c).trans_le (le_after _ text)

/-- Behind more text, a position is the same only if there is nothing more. -/
theorem eq_nil_of_behind_append {text more : List Char} (h : behind (text ++ more) = behind text) :
    more = [] := by
  by_contra hne
  rw [behind_append] at h
  exact absurd h (lt_after _ hne).ne'

/-- In a text, a position tells what stands before it. -/
theorem behind_inj {text before before' : List Char} (hb : before <+: text)
    (hb' : before' <+: text) (h : behind before = behind before') : before = before' := by
  rcases List.prefix_or_prefix_of_prefix hb hb' with ⟨more, rfl⟩ | ⟨more, rfl⟩
  · rw [eq_nil_of_behind_append h.symm, List.append_nil]
  · rw [eq_nil_of_behind_append h, List.append_nil]

end Position

namespace Cursor

variable {c : Cursor}

/-- A token stands at the cursor or behind it. -/
theorem le_position_token (c : Cursor) : c.position ≤ c.token.1.position := by
  rw [position_token]
  exact c.position.le_after c.gap

/-- Behind a token, the cursor has moved on. -/
theorem position_token_lt (h : c.token.1.kind ≠ .eof) :
    c.token.1.position < c.token.2.position := by
  obtain ⟨ch, cs, hs⟩ := exists_skipGap_eq_of_ne_eof h
  rw [token_of_cons hs]
  exact Position.lt_after _ (munch_span_ne_nil ch cs)

/-- From a cursor on, every token stands behind those before it, and none before the cursor. -/
theorem pairwise_scan (c : Cursor) :
    (c.scan.toList.map Token.position).Pairwise (· < ·) ∧
      ∀ p ∈ c.scan.toList.map Token.position, c.position ≤ p := by
  fun_induction Cursor.scan c with
  | case1 c hne _ ih =>
    have hlt := position_token_lt hne
    rw [TokenStream.toList_cons, List.map_cons, List.pairwise_cons, List.forall_mem_cons]
    refine ⟨⟨?_, ih.1⟩, c.le_position_token, ?_⟩
    · exact fun p hp => hlt.trans_le (ih.2 p hp)
    · exact fun p hp => c.le_position_token.trans (hlt.le.trans (ih.2 p hp))
  | case2 c _ =>
    exact ⟨List.pairwise_singleton _ _, List.forall_mem_singleton.2 c.le_position_token⟩

end Cursor

namespace TokenStream

/-- The tokens of a stream stand behind each other. -/
def Ordered (s : TokenStream) : Prop := (s.toList.map Token.position).Pairwise (· < ·)

/-- The tokens of a source text are in order. -/
theorem ordered_scan (source : String) : (scan source).Ordered :=
  (Cursor.pairwise_scan (.ofSource source)).1

variable {s : TokenStream}

/-- Later tokens of the endless stream stand no further in front. -/
theorem Ordered.position_get_mono (h : s.Ordered) {i j : Nat} (hij : i ≤ j) :
    (s.get i).position ≤ (s.get j).position := by
  obtain ⟨hi, hgi⟩ := List.getElem?_eq_some_iff.1 (s.getElem?_toList i)
  obtain ⟨hj, hgj⟩ := List.getElem?_eq_some_iff.1 (s.getElem?_toList j)
  -- Beyond the end of the text both are the same token.
  have hle : min i s.body.length ≤ min j s.body.length := by omega
  rcases hle.eq_or_lt with heq | hlt
  · rw [← hgi, ← hgj]
    simp only [heq, le_refl]
  · have hpos := List.pairwise_iff_getElem.1 (List.pairwise_map.1 h) _ _ hi hj hlt
    rw [hgi, hgj] at hpos
    exact hpos.le

/-- The tokens of the text stand before its end. -/
theorem Ordered.position_lt_finish (h : s.Ordered) {t : Token} (ht : t ∈ s.body) :
    t.position < s.finish := by
  unfold Ordered toList at h
  rw [List.map_append, List.pairwise_append] at h
  exact h.2.2 _ (List.mem_map_of_mem ht) _ (List.mem_singleton.2 rfl)

/-- No token of an ordered stream comes twice. -/
theorem Ordered.nodup_body (h : s.Ordered) : s.body.Nodup := by
  unfold Ordered toList at h
  rw [List.map_append, List.pairwise_append] at h
  exact (List.pairwise_map.1 h.1).imp fun hlt heq => absurd (heq ▸ hlt) (lt_irrefl _)

end TokenStream

end Abacus
