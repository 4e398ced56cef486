import Abacus.Proofs.Grammar
import Abacus.Proofs.Reading

namespace Abacus

open Abacus.Parser (advance)

/-!
# Precedence climbing reads the grammar

* `Reads.derives` — what is read without a complaint is a phrase of the grammar, as deep as was
  allowed at most, and no operator that could go on with it follows.
* `Derives.readAsPhrase` — a phrase of the grammar is read as such, and its outline is kept.
* `Derives.unique` — the grammar gives a list of tokens at most one tree, because the parser does.
-/

/-! ### Precedences and nonterminals -/

/-- The nonterminal of an operand whose operators bind at least this tightly. -/
def Precedence.nonterminal : Precedence → Nonterminal
  | none | assignment | or | and | equality | comparison | term => .expr
  | factor => .term
  | unary | call | primary => .unary

namespace BinaryOp

/-- The right operand of an operator is of the next nonterminal. -/
@[simp] theorem nonterminal_next (op : BinaryOp) :
    op.binding.next.nonterminal = op.rightNonterminal := by
  cases op <;> rfl

/-- An operator may stand open in the operands that admit it. -/
theorem le_binding_iff (op : BinaryOp) (least : Precedence) :
    least ≤ op.binding ↔ least.nonterminal.binding ≤ op.binding := by
  cases op <;> cases least <;> decide

/-- The next precedence is above those up to the operator's own. -/
theorem lt_next_iff (op : BinaryOp) (p : Precedence) : p < op.binding.next ↔ p ≤ op.binding := by
  cases op <;> cases p <;> decide

end BinaryOp

/-- Every operand may begin with a sign. -/
theorem Precedence.nonterminal_le_unary (p : Precedence) :
    p.nonterminal.binding ≤ Nonterminal.unary.binding := by
  cases p <;> decide

/-- No token holds an operand as tightly as a sign does. -/
theorem Rule.binding_lt_unary (kind : Kind) : (Rule.of kind).binding < .unary := by
  unfold Rule.of
  split <;> decide

/-- How tightly the token at the front holds an operand before it. -/
def TokenStream.binding (s : TokenStream) : Precedence := (Rule.of s.current.kind).binding

/-! ### What is read is a phrase -/

/-- A part of an expression that was read from `s` up to `s'` is one of the grammar. The operators
    of an operand take a phrase `l` before them and make a larger one. -/
def Part.Derived : Part → TokenStream → TokenStream → Prop
  | .operand levels least, s, s' =>
    s'.binding < least ∧ ∃ ts e, Derives least.nonterminal ts e ∧ s.tokens = ts ++ s'.tokens ∧
      e.level ≤ levels
  | .head levels, s, s' =>
    ∃ ts e, Derives .unary ts e ∧ s.tokens = ts ++ s'.tokens ∧ e.level ≤ levels + 1
  | .tail levels least, s, s' =>
    s'.binding < least ∧ ∀ c ls l, Derives c ls l → s.binding ≤ c.binding →
      least.nonterminal.binding ≤ c.binding → l.level ≤ levels + 1 →
        ∃ ts e, Derives least.nonterminal (ls ++ ts) e ∧ s.tokens = ts ++ s'.tokens ∧
          e.level ≤ levels + 1

namespace Part

variable {levels : Nat} {least : Precedence} {s s₁ s₂ : TokenStream}

/-- A beginning and the operators after it are an operand. -/
theorem derived_begun (h₁ : (head levels).Derived s s₁) (h₂ : (tail levels least).Derived s₁ s₂) :
    (operand (levels + 1) least).Derived s s₂ := by
  obtain ⟨ts, l, hl, hts, hlevel⟩ := h₁
  obtain ⟨hb, htail⟩ := h₂
  -- After the beginning, every operator may follow.
  have hfront : s₁.binding ≤ Nonterminal.unary.binding :=
    Nat.le_of_lt (Rule.binding_lt_unary s₁.current.kind)
  obtain ⟨us, e, he, hus, hle⟩ := htail .unary ts l hl hfront least.nonterminal_le_unary hlevel
  refine ⟨hb, ts ++ us, e, he, ?_, hle⟩
  rw [hts, hus, List.append_assoc]

theorem derived_number (hs : s.Settled) (hk : s.current.kind = .number) :
    (head levels).Derived s s.next := by
  have ht := hs.tokens_of_ne (by rw [hk]; decide)
  refine ⟨[s.current], .number s.current, (Derives.number hk).primary, ht, ?_⟩
  exact Nat.le_add_left 1 levels

/-- A sign before a derived operand is derived. -/
theorem derived_negate (hs : s.Settled) (hk : s.current.kind = .operator .minus false)
    (h : (operand levels .unary).Derived s.next s₁) : (head levels).Derived s s₁ := by
  obtain ⟨-, ts, e, he, hts, hle⟩ := h
  have ht := hs.tokens_of_ne (by rw [hk]; decide)
  refine ⟨s.current :: ts, .negate s.current e, .negate hk he, ?_, ?_⟩
  · rw [ht, hts, List.cons_append]
  · rw [Sentence.level]
    omega

/-- A derived expression between parentheses is derived. -/
theorem derived_closed (hs : s.Settled) (hs₁ : s₁.Settled)
    (hk : s.current.kind = .delimiter .leftParen)
    (h : (operand levels .assignment).Derived s.next s₁)
    (hc : s₁.current.kind = .delimiter .rightParen) : (head levels).Derived s s₁.next := by
  obtain ⟨-, ts, e, he, hts, hle⟩ := h
  have ht := hs.tokens_of_ne (by rw [hk]; decide)
  have ht₁ := hs₁.tokens_of_ne (by rw [hc]; decide)
  refine ⟨_, .group s.current e s₁.current, (Derives.group hk he hc).primary, ?_, ?_⟩
  · rw [ht, hts, ht₁, List.cons_append, List.cons_append, List.append_assoc]
    rfl
  · rw [Sentence.level]
    omega

/-- Where no operator binds tightly enough, there is nothing more to derive. -/
theorem derived_done (hb : s.binding < least) : (tail levels least).Derived s s := by
  refine ⟨hb, fun c ls l hl _ hc hlevel => ⟨[], l, ?_, rfl, hlevel⟩⟩
  rw [List.append_nil]
  exact hl.loosen hc

/-- An operator takes the phrase before it as its left operand, and what comes of this goes on. -/
theorem derived_more {op : BinaryOp} (hs : s.Settled) (hk : s.current.kind = op.kind)
    (hle : least ≤ op.binding) (h₁ : (operand levels op.binding.next).Derived s.next s₁)
    (h₂ : (tail levels least).Derived s₁ s₂) : (tail levels least).Derived s s₂ := by
  obtain ⟨hb₁, rs, r, hr, hrs, hlevel⟩ := h₁
  obtain ⟨hb₂, htail⟩ := h₂
  rw [op.nonterminal_next] at hr
  have ht := hs.tokens_of_ne (by rw [hk]; cases op <;> decide)
  have hop : s.binding = op.binding := by rw [TokenStream.binding, hk, op.binding_of_kind]
  refine ⟨hb₂, fun c ls l hl hfront hc hl' => ?_⟩
  have hleft : Derives op.nonterminal ls l := by
    refine hl.loosen ?_
    rw [op.binding_nonterminal, ← hop]
    exact hfront
  -- The right operand ends before an operator that binds no more tightly than this one.
  have hfront₁ : s₁.binding ≤ op.nonterminal.binding := by
    rw [op.binding_nonterminal]
    exact (op.lt_next_iff _).1 hb₁
  have hc₁ : least.nonterminal.binding ≤ op.nonterminal.binding := by
    rw [op.binding_nonterminal]
    exact (op.le_binding_iff least).1 hle
  have hlevel₁ : (Sentence.binary op l s.current r).level ≤ levels + 1 := by
    rw [Sentence.level]
    omega
  obtain ⟨us, e, he, hus, hle₂⟩ := htail _ _ _ (.binary hleft hk hr) hfront₁ hc₁ hlevel₁
  refine ⟨s.current :: rs ++ us, e, ?_, ?_, hle₂⟩
  · rw [List.append_assoc] at he
    exact he
  · rw [ht, hrs, hus, List.cons_append, List.cons_append, List.append_assoc]

end Part

/-- What is read without a complaint is a phrase of the grammar. -/
theorem Reads.derives {part : Part} {s s' : TokenStream} {as : List Action}
    (h : Reads part s as s') (hs : s.Settled) (hq : firstReport as = none) :
    part.Derived s s' := by
  induction h with
  | refused => cases hq
  | missing _ => simp [Action.report?] at hq
  | begun h₁ _ ih₁ ih₂ =>
    simp only [firstReport_append, firstReport_cons, Action.report?, Option.none_or,
      Option.or_eq_none_iff] at hq
    exact Part.derived_begun (ih₁ hs hq.1.1) (ih₂ (h₁.settled hs) hq.1.2)
  | number hk => exact Part.derived_number hs hk
  | @negate _ s _ _ hk _ ih =>
    simp only [firstReport_append, firstReport_cons, firstReport_advance, Action.report?,
      Option.none_or, Option.or_eq_none_iff] at hq
    exact Part.derived_negate hs hk (ih s.settled_next hq.1)
  | @closed _ s _ _ hk h₁ hc ih =>
    simp only [firstReport_append, firstReport_cons, firstReport_advance, Action.report?,
      Option.none_or, Option.or_none] at hq
    have hs₁ := h₁.settled s.settled_next
    exact Part.derived_closed hs hs₁ hk (ih s.settled_next hq) hc
  | unclosed _ _ _ _ => simp [Action.report?] at hq
  | done hb => exact Part.derived_done hb
  | @more _ _ _ s _ _ _ _ hk hle h₁ _ ih₁ ih₂ =>
    simp only [firstReport_append, firstReport_cons, firstReport_advance, Action.report?,
      Option.none_or, Option.or_none, Option.or_eq_none_iff, firstReport_nil] at hq
    have hs₁ := h₁.settled s.settled_next
    exact Part.derived_more hs hk hle (ih₁ s.settled_next hq.1) (ih₂ hs₁ hq.2)

/-! ### A phrase is read -/

/-- How tightly the first of some tokens holds an operand before it; the end of the text does not
    at all. -/
def frontBinding : List Token → Precedence
  | [] => .none
  | t :: _ => (Rule.of t.kind).binding

/-- What a settled stream binds by is told by its tokens. -/
theorem TokenStream.Settled.binding_eq {s : TokenStream} (h : s.Settled) :
    s.binding = frontBinding s.tokens := by
  rcases h.tokens_eq with ⟨ht, he⟩ | ht
  · rw [binding, ht, he]
    rfl
  · rw [ht]
    rfl

/-- The first of the tokens is in front, and the others follow it. -/
theorem TokenStream.Settled.of_tokens_eq {s : TokenStream} (h : s.Settled) {t : Token}
    {ts : List Token} (ht : s.tokens = t :: ts) : s.current = t ∧ s.next.tokens = ts := by
  rw [h.current_eq, h.tokens_next, ht]
  exact ⟨rfl, rfl⟩

/-- A phrase begins with a token that begins an operand. -/
theorem Derives.exists_starts {c : Nonterminal} {ts : List Token} {e : Sentence}
    (d : Derives c ts e) : ∃ t us, ts = t :: us ∧ (Rule.of t.kind).starts ≠ none := by
  induction d with
  | number ht => exact ⟨_, _, rfl, by rw [ht]; decide⟩
  | group ho _ _ _ => exact ⟨_, _, rfl, by rw [ho]; decide⟩
  | primary _ ih => exact ih
  | negate ht _ _ => exact ⟨_, _, rfl, by rw [ht]; decide⟩
  | unary _ ih => exact ih
  | term _ ih => exact ih
  | binary _ _ _ ihl _ =>
    obtain ⟨t, us, rfl, ht⟩ := ihl
    exact ⟨t, us ++ _, rfl, ht⟩

/-- Wherever some tokens stand that the grammar gives the tree `e`, they are read as this phrase:
    reading the beginning of an operand and then its operators keeps the outline of `e` and comes
    to where the operators go on. -/
def ReadAsPhrase (c : Nonterminal) (ts : List Token) (e : Sentence) : Prop :=
  ∀ ⦃levels : Nat⦄ ⦃least : Precedence⦄ ⦃s s₁ s₂ : TokenStream⦄ ⦃as bs : List Action⦄
    ⦃more : List Token⦄,
    s.Settled → s.tokens = ts ++ more → e.level ≤ levels + 1 →
      least.nonterminal.binding ≤ c.binding → frontBinding more ≤ c.binding →
        Reads (.head levels) s as s₁ → Reads (.tail levels least) s₁ bs s₂ →
          ∃ s₃ cs ds, s₃.Settled ∧ s₃.tokens = more ∧ Reads (.tail levels least) s₃ ds s₂ ∧
            as ++ bs = cs ++ ds ∧ kept cs = e.outline

/-- If the operators cannot go on after a phrase, an operand is the phrase. -/
theorem ReadAsPhrase.operand {c : Nonterminal} {ts more : List Token} {e : Sentence}
    (hp : ReadAsPhrase c ts e) (d : Derives c ts e) {levels : Nat} {least : Precedence}
    {s s' : TokenStream} {as : List Action} (h : Reads (.operand levels least) s as s')
    (hs : s.Settled) (ht : s.tokens = ts ++ more) (hlevel : e.level ≤ levels)
    (hc : least.nonterminal.binding ≤ c.binding) (hfront : frontBinding more ≤ c.binding)
    (hmore : frontBinding more < least) :
    s'.Settled ∧ s'.tokens = more ∧ kept as = e.outline := by
  cases h with
  | refused => exact absurd hlevel (Nat.not_le.2 e.level_pos)
  | missing hn =>
    obtain ⟨t, us, rfl, hstart⟩ := d.exists_starts
    rw [(hs.of_tokens_eq ht).1] at hn
    exact absurd hn hstart
  | begun h₁ h₂ =>
    obtain ⟨s₃, cs, ds, hs₃, ht₃, h₃, hcat, hkept⟩ := hp hs ht hlevel hc hfront h₁ h₂
    -- The next token does not hold the phrase.
    have hb : s₃.binding < least := by
      rw [hs₃.binding_eq, ht₃]
      exact hmore
    obtain ⟨rfl, rfl⟩ := h₃.tail_of_lt hb
    refine ⟨hs₃, ht₃, ?_⟩
    rw [List.append_nil] at hcat
    rw [← hkept, ← hcat]
    simp [Action.isKept]

/-- No token joins operands as tightly as a sign. -/
theorem frontBinding_lt_unary (ts : List Token) : frontBinding ts < .unary := by
  cases ts with
  | nil => decide
  | cons t _ => exact Rule.binding_lt_unary t.kind

/-- A closing parenthesis holds no operand. -/
theorem frontBinding_closing {c : Token} (hc : c.kind = .delimiter .rightParen)
    (more : List Token) : frontBinding ([c] ++ more) = .none := by
  rw [List.singleton_append, frontBinding, hc]
  rfl

/-- An operator may follow what it can take as its left operand. -/
theorem BinaryOp.frontBinding_le {op : BinaryOp} {m : Token} (hm : m.kind = op.kind)
    (rs more : List Token) : frontBinding (m :: rs ++ more) ≤ op.nonterminal.binding := by
  rw [op.binding_nonterminal, List.cons_append, frontBinding, hm, op.binding_of_kind]
  exact Nat.le_refl _

namespace ReadAsPhrase

/-- A number is read as the phrase that it is. -/
theorem number {t : Token} (hk : t.kind = .number) : ReadAsPhrase .primary [t] (.number t) := by
  intro levels least s s₁ s₂ as bs more hs ht _ _ _ h₁ h₂
  obtain ⟨rfl, hnext⟩ := hs.of_tokens_eq ht
  obtain ⟨rfl, rfl⟩ := h₁.head_of_number hk
  refine ⟨s.next, _, bs, s.settled_next, hnext, h₂, rfl, ?_⟩
  simp [Sentence.outline, Action.isKept]

/-- An expression between parentheses is read as a phrase if the expression is. -/
theorem group {o c : Token} {ts : List Token} {e : Sentence} (hp : ReadAsPhrase .expr ts e)
    (d : Derives .expr ts e) (hk : o.kind = .delimiter .leftParen)
    (hc : c.kind = .delimiter .rightParen) :
    ReadAsPhrase .primary (o :: ts ++ [c]) (.group o e c) := by
  intro levels least s s₁ s₂ as bs more hs ht hlevel _ _ h₁ h₂
  rw [List.append_assoc] at ht
  obtain ⟨rfl, hnext⟩ := hs.of_tokens_eq ht
  have hle : e.level ≤ levels := by
    rw [Sentence.level] at hlevel
    omega
  -- The body ends at the closing parenthesis.
  have hb := frontBinding_closing hc more
  obtain ⟨cs, s₃, h, rfl, rfl⟩ := h₁.head_of_leftParen hk
  obtain ⟨hs₃, ht₃, hkept⟩ := hp.operand d h s.settled_next hnext hle (by decide)
    (by rw [hb]; decide) (by rw [hb]; decide)
  obtain ⟨rfl, hnext₃⟩ := hs₃.of_tokens_eq ht₃
  rw [Parser.expect_of_eq hc] at h₂ ⊢
  refine ⟨_, _, bs, TokenStream.settled_next _, hnext₃, h₂, rfl, ?_⟩
  simp [Sentence.outline, Action.isKept, hkept]

/-- A phrase of a tighter nonterminal is read in a looser one in the same way. -/
theorem loosen {c c' : Nonterminal} {ts : List Token} {e : Sentence} (hp : ReadAsPhrase c ts e)
    (hle : c'.binding ≤ c.binding) : ReadAsPhrase c' ts e := by
  intro levels least s s₁ s₂ as bs more hs ht hlevel hc hfront
  exact hp hs ht hlevel (Nat.le_trans hc hle) (Nat.le_trans hfront hle)

/-- A negated operand is read as a phrase if the operand is. -/
theorem negate {t : Token} {ts : List Token} {e : Sentence} (hp : ReadAsPhrase .unary ts e)
    (d : Derives .unary ts e) (hk : t.kind = .operator .minus false) :
    ReadAsPhrase .unary (t :: ts) (.negate t e) := by
  intro levels least s s₁ s₂ as bs more hs ht hlevel _ hfront h₁ h₂
  obtain ⟨rfl, hnext⟩ := hs.of_tokens_eq ht
  have hle : e.level ≤ levels := by
    rw [Sentence.level] at hlevel
    omega
  obtain ⟨cs, h, rfl⟩ := h₁.head_of_minus hk
  obtain ⟨hs', ht', hkept⟩ := hp.operand d h s.settled_next hnext hle (by decide) hfront
    (frontBinding_lt_unary more)
  refine ⟨s₁, _, bs, hs', ht', h₂, rfl, ?_⟩
  simp [Sentence.outline, Action.isKept, hkept]

/-- Two operands with an operator between them are read as a phrase if both are. -/
theorem binary {op : BinaryOp} {m : Token} {ls rs : List Token} {l r : Sentence}
    (hl : ReadAsPhrase op.nonterminal ls l) (hm : m.kind = op.kind)
    (hr : ReadAsPhrase op.rightNonterminal rs r) (dr : Derives op.rightNonterminal rs r) :
    ReadAsPhrase op.nonterminal (ls ++ m :: rs) (.binary op l m r) := by
  intro levels least s s₁ s₂ as bs more hs ht hlevel hc hfront h₁ h₂
  rw [List.append_assoc] at ht
  rw [Sentence.level] at hlevel
  -- The operator may follow the left operand, which is read first.
  have hb := BinaryOp.frontBinding_le hm rs more
  obtain ⟨s₃, cs, ds, hs₃, ht₃, h₃, hcat, hkept⟩ := hl hs ht (by omega) hc hb h₁ h₂
  obtain ⟨hcur, hnext⟩ := hs₃.of_tokens_eq ht₃
  rw [op.binding_nonterminal] at hc hfront
  subst hcur
  obtain ⟨as', bs', s₄, h₄, h₅, rfl⟩ := h₃.tail_of_kind hm ((op.le_binding_iff least).2 hc)
  -- The right operand ends before an operator that binds no more tightly.
  have hlt := (op.lt_next_iff _).2 hfront
  obtain ⟨hs₄, ht₄, hkept₄⟩ := hr.operand dr h₄ (TokenStream.settled_next _) hnext (by omega)
    (by rw [op.nonterminal_next]; exact Nat.le_refl _)
    (by rw [op.binding_rightNonterminal]; exact Nat.le_of_lt hlt) hlt
  refine ⟨s₄, cs ++ (.extend s₃.current :: (advance s₃).actions ++
    .apply .binary s₃.current :: as' ++ [.emit op.opcode, .merge]), bs', hs₄, ht₄, h₅, ?_, ?_⟩
  · rw [hcat]
    simp only [List.append_assoc]
  · simp [Sentence.outline, Action.isKept, hkept, hkept₄]

end ReadAsPhrase

/-- Every phrase of the grammar is read as such. -/
theorem Derives.readAsPhrase {c : Nonterminal} {ts : List Token} {e : Sentence}
    (d : Derives c ts e) : ReadAsPhrase c ts e := by
  induction d with
  | number hk => exact .number hk
  | group hk d hc ih => exact ih.group d hk hc
  | primary _ ih => exact ih.loosen (by decide)
  | negate hk d ih => exact ih.negate d hk
  | unary _ ih => exact ih.loosen (by decide)
  | term _ ih => exact ih.loosen (by decide)
  | binary _ hm dr ihl ihr => exact ihl.binary hm ihr dr

/-! ### There is one tree -/

/-- No token of a phrase is an error. -/
theorem Derives.isError_eq_false {c : Nonterminal} {ts : List Token} {e : Sentence}
    (d : Derives c ts e) : ∀ t ∈ ts, t.isError = false := by
  have of_kind : ∀ {t : Token} {k : Kind}, t.kind = k → k ≠ .error → t.isError = false :=
    fun hk hne => by simp [Token.isError, hk, hne]
  induction d with
  | number hk => exact List.forall_mem_singleton.2 (of_kind hk (by decide))
  | group ho _ hc ih =>
    rw [List.forall_mem_append, List.forall_mem_cons, List.forall_mem_singleton]
    exact ⟨⟨of_kind ho (by decide), ih⟩, of_kind hc (by decide)⟩
  | primary _ ih => exact ih
  | negate hk _ ih => exact List.forall_mem_cons.2 ⟨of_kind hk (by decide), ih⟩
  | unary _ ih => exact ih
  | term _ ih => exact ih
  | @binary op m ls rs l r _ hm _ ihl ihr =>
    rw [List.forall_mem_append, List.forall_mem_cons]
    exact ⟨ihl, of_kind hm (by cases op <;> decide), ihr⟩

/-- A phrase is a stream of its own, in which every token counts. -/
theorem Derives.settled {c : Nonterminal} {ts : List Token} {e : Sentence} (d : Derives c ts e)
    (finish : Position) :
    TokenStream.Settled ⟨ts, finish⟩ ∧ TokenStream.tokens ⟨ts, finish⟩ = ts := by
  constructor
  · obtain ⟨t, us, rfl, -⟩ := d.exists_starts
    exact d.isError_eq_false t (List.mem_cons_self ..)
  · exact List.filter_eq_self.2 fun t ht => by simp [d.isError_eq_false t ht]

/-- The grammar gives a list of tokens at most one tree. -/
theorem Derives.unique {c : Nonterminal} {ts : List Token} {e e' : Sentence} (d : Derives c ts e)
    (d' : Derives c ts e') : e = e' := by
  -- The parser, allowed to go deep enough, keeps the outlines of both.
  let s : TokenStream := ⟨ts, .start⟩
  obtain ⟨hs, ht⟩ : s.Settled ∧ s.tokens = ts := d.settled .start
  rw [← List.append_nil ts] at ht
  have hr := reads_operand (max e.level e'.level) (Nat.le_refl Precedence.assignment.rank) s
  have outline_eq : ∀ {x : Sentence}, Derives c ts x → x.level ≤ max e.level e'.level →
      kept (Parser.operand _ _ s).actions = x.outline := fun dx hx =>
    (dx.readAsPhrase.operand dx hr hs ht hx (by cases c <;> decide) (by cases c <;> decide)
      (by decide)).2.2
  have h := outline_eq d (Nat.le_max_left _ _)
  rw [outline_eq d' (Nat.le_max_right _ _)] at h
  exact d.eq_of_outline_eq d' h.symm

end Abacus
