import Abacus.Proofs.Parentheses
import Abacus.Proofs.TokenLog

namespace Abacus

open Abacus.Parser (advance)

/-!
# What is said when a limit is exceeded

Compiling goes on when a limit is exceeded. About a sentence, it says exactly which numbers find no
room, and if the sentence nests too deeply, it says so before all else.

* `Sentence.operands` — the numbers of a tree, and how many operands wait on the stack with each.
* `limitRemarks` — what is said about a number that finds no room.
* `Assembly.remarksAll_outline` — this is all that is said when a tree is written.
* `Sentence.Nested`, `Sentence.Leftmost` — a tree stands some levels deeper in another, and is the
  first one that does.
* `StopsTooDeep`, `Derives.readTooDeep` — a sentence that nests too deeply is read up to the first
  operand that is too deep, and nothing is reported before.
* `compileInto_limits` — both for source texts.
-/

/-! ### Numbers without room -/

/-- The numbers of a tree in order, each with how many operands wait on the stack once it is there.
    A left operand waits while the right one is worked out. -/
def Sentence.operands (waiting : Nat) : Sentence → List (Token × Nat)
  | number t => [(t, waiting + 1)]
  | group _ body _ => body.operands waiting
  | negate _ operand => operand.operands waiting
  | binary _ left _ right => left.operands waiting ++ right.operands (waiting + 1)

/-- What is said about a number that becomes the constant at `index`, with which `count` operands
    wait. An index that does not fit is complained about, and behind that the stack, where the
    number is the first one without room on it. -/
def limitRemarks : (Token × Nat) × Nat → List Diagnostic
  | ((t, count), index) =>
    if index < constantMax then []
    else
      ⟨.grammatical .tooManyConstants, t.position⟩
        :: if count = stackMax + 1 then [⟨.grammatical .tooDeepForStack, t.position⟩] else []

/-- The numbers with which operands wait are all numbers, in the order of the text. -/
theorem Derives.map_fst_operands {c : Nonterminal} {ts : List Token} {e : Sentence}
    (d : Derives c ts e) (waiting : Nat) : (e.operands waiting).map Prod.fst = numbersOf ts := by
  induction d generalizing waiting with
  | number hk =>
    rw [numbersOf, List.filter_cons_of_pos (by simpa using hk)]
    rfl
  | group ho _ hc ih =>
    rw [numbersOf_append, numbersOf_cons_of_ne _ ho (by decide),
      numbersOf_cons_of_ne _ hc (by decide)]
    exact (ih waiting).trans (List.append_nil _).symm
  | primary _ ih => exact ih waiting
  | negate hk _ ih =>
    rw [numbersOf_cons_of_ne _ hk (by decide)]
    exact ih waiting
  | unary _ ih => exact ih waiting
  | term _ ih => exact ih waiting
  | @binary op _ _ _ _ _ _ hm _ ihl ihr =>
    have hne : op.kind ≠ .number := by cases op <;> decide
    rw [numbersOf_append, numbersOf_cons_of_ne _ hm hne, Sentence.operands, List.map_append, ihl,
      ihr]

/-- A tree has as many numbers as literals. -/
theorem Sentence.length_operands {e : Sentence} {x : Expr Float} (hx : e.expr? = some x)
    (waiting : Nat) : (e.operands waiting).length = x.literals.length := by
  induction e generalizing x waiting with
  | number t =>
    obtain ⟨value, -, rfl⟩ := Option.map_eq_some_iff.1 hx
    rfl
  | group _ body _ ih => exact ih hx waiting
  | negate _ operand ih =>
    obtain ⟨y, hy, rfl⟩ := Option.map_eq_some_iff.1 hx
    exact ih hy waiting
  | binary op left _ right ihl ihr =>
    obtain ⟨l, hl, hx⟩ := Option.bind_eq_some_iff.1 hx
    obtain ⟨r, hr, hx⟩ := Option.bind_eq_some_iff.1 hx
    obtain rfl := Option.some.inj hx
    rw [operands, List.length_append, ihl hl, ihr hr, Expr.literals, List.length_append]

namespace Assembly

variable {a : Assembly}

/-- Every operand that waits is a constant, so the constants run out of room before the stack. -/
theorem remarks_literal {t : Token} {value : Float} (hv : Literal.read? t.lexeme = some value)
    (ha : a.pending ≤ a.chunk.constants.size) :
    a.remarks (.literal t) = limitRemarks ((t, a.pending + 1), a.chunk.constants.size) := by
  have hmax : constantMax = stackMax := rfl
  simp only [remarks, hv, limitRemarks]
  by_cases hroom : a.chunk.constants.size < constantMax
  · have hstack : ¬ a.pending + 1 = stackMax + 1 := by omega
    rw [if_pos hroom, if_pos hroom, if_neg hstack, List.append_nil]
  · rw [if_neg hroom, if_neg hroom, List.singleton_append]

/-- When a tree is written, only its numbers are spoken of, and each on its own. -/
theorem remarksAll_outline {e : Sentence} {x : Expr Float} (hx : e.expr? = some x)
    (ha : a.pending ≤ a.chunk.constants.size) :
    a.remarksAll e.outline
      = ((e.operands a.pending).zipIdx a.chunk.constants.size).flatMap limitRemarks := by
  induction e generalizing x a with
  | number t =>
    obtain ⟨value, hv, rfl⟩ := Option.map_eq_some_iff.1 hx
    show a.remarks (.literal t) ++ [] = limitRemarks _ ++ []
    rw [remarks_literal hv ha]
  | group o body c ih =>
    have h := ih hx ha
    simpa [Sentence.outline, Sentence.operands, remarksAll, remarksAll_append, remarks, perform]
      using h
  | negate s operand ih =>
    obtain ⟨y, hy, rfl⟩ := Option.map_eq_some_iff.1 hx
    have h := ih hy ha
    simpa [Sentence.outline, Sentence.operands, remarksAll, remarksAll_append, remarks, perform]
      using h
  | binary op left m right ihl ihr =>
    obtain ⟨l, hl, hx⟩ := Option.bind_eq_some_iff.1 hx
    obtain ⟨r, hr, hx⟩ := Option.bind_eq_some_iff.1 hx
    obtain rfl := Option.some.inj hx
    -- While the right operand is written, the left one waits, and it brought a literal.
    have hadds := Sentence.adds_outline hl a
    have hpos := l.literals_length_pos
    have ha' : (a.performAll left.outline).pending
        ≤ (a.performAll left.outline).chunk.constants.size := by
      rw [hadds.pending, hadds.size_eq]
      omega
    have hright := ihr hr ha'
    rw [hadds.pending, hadds.size_eq] at hright
    rw [Sentence.operands, List.zipIdx_append, List.flatMap_append, Sentence.length_operands hl,
      ← ihl hl ha, ← hright]
    simp [Sentence.outline, remarksAll, remarksAll_append, remarks, perform]

/-- What is not about a token keeps the constants, and adds no operand that waits. -/
theorem perform_of_site? (a : Assembly) {x : Action} (h : x.site? = none) :
    (a.perform x).chunk.constants = a.chunk.constants ∧ (a.perform x).pending ≤ a.pending := by
  cases x with
  | scan t =>
    rw [perform]
    split <;> exact ⟨rfl, Nat.le_refl _⟩
  | literal t => cases h
  | report complaint t => cases h
  | merge => exact ⟨rfl, Nat.sub_le _ _⟩
  | _ => exact ⟨rfl, Nat.le_refl _⟩

/-- As long as nothing is reported and all numbers find room, nothing is said. -/
theorem remarksAll_eq_nil {as : List Action} (hreport : firstReport as = none)
    (hflaws : scannedFlaws as = [])
    (hread : ∀ t ∈ as.filterMap Action.site?, ∃ x, Literal.read? t.lexeme = some x)
    (ha : a.pending ≤ a.chunk.constants.size)
    (hroom : ∀ p ∈ (as.filterMap Action.site?).zipIdx a.chunk.constants.size, p.2 < constantMax) :
    a.remarksAll as = [] := by
  induction as generalizing a with
  | nil => rfl
  | cons x as ih =>
    rw [firstReport_cons, Option.or_eq_none_iff] at hreport
    rw [scannedFlaws_cons, List.append_eq_nil_iff] at hflaws
    rw [remarksAll, List.append_eq_nil_iff]
    cases hsite : x.site? with
    | none =>
      rw [List.filterMap_cons_none hsite] at hread hroom
      obtain ⟨hconstants, hpending⟩ := a.perform_of_site? hsite
      refine ⟨?_, ih hreport.2 hflaws.2 hread ?_ ?_⟩
      · cases x with
        | scan t =>
          have ht : t.isError = false := by simpa [Action.flaws] using hflaws.1
          simp [remarks, ht]
        | literal t => cases hsite
        | report complaint t => cases hsite
        | _ => rfl
      · rw [hconstants]
        exact Nat.le_trans hpending ha
      · rw [hconstants]
        exact hroom
    | some t =>
      rw [List.filterMap_cons_some hsite, List.forall_mem_cons] at hread
      rw [List.filterMap_cons_some hsite, List.zipIdx_cons, List.forall_mem_cons] at hroom
      cases x with
      | literal u =>
        obtain rfl := Option.some.inj hsite
        obtain ⟨value, hv⟩ := hread.1
        have hadds := Adds.number a value u.position
        have hperform : a.perform (.literal u) = a.constant value u.position := by
          simp only [perform, hv]
        have hsize : (a.constant value u.position).chunk.constants.size
            = a.chunk.constants.size + 1 := hadds.size_eq
        rw [hperform]
        refine ⟨?_, ih hreport.2 hflaws.2 hread.2 ?_ ?_⟩
        · rw [remarks_literal hv ha, limitRemarks, if_pos hroom.1]
        · rw [hadds.pending, hsize]
          omega
        · rw [hsize]
          exact hroom.2
      | report complaint u => cases hreport.1
      | _ => cases hsite

end Assembly

/-! ### Levels -/

namespace Sentence

/-- A tree stands in another one, some levels deeper and behind some of its tokens. -/
inductive Nested (f : Sentence) : (depth : Nat) → (before : List Token) → Sentence → Prop where
  | whole : Nested f 0 [] f
  | body {depth : Nat} {before : List Token} {o c : Token} {e : Sentence} :
      Nested f depth before e → Nested f (depth + 1) (o :: before) (.group o e c)
  | operand {depth : Nat} {before : List Token} {s : Token} {e : Sentence} :
      Nested f depth before e → Nested f (depth + 1) (s :: before) (.negate s e)
  | left {depth : Nat} {before : List Token} {op : BinaryOp} {m : Token} {l r : Sentence} :
      Nested f depth before l → Nested f depth before (.binary op l m r)
  | right {depth : Nat} {before : List Token} {op : BinaryOp} {m : Token} {l r : Sentence} :
      Nested f depth before r → Nested f (depth + 1) (l.tokens ++ m :: before) (.binary op l m r)

variable {e f g l r : Sentence} {depth : Nat} {before later : List Token}

/-- A tree inside of another is less deep than that one's level. -/
theorem Nested.lt_level (h : f.Nested depth before e) : depth < e.level := by
  induction h with
  | whole => exact f.level_pos
  | body _ ih => rw [level]; omega
  | operand _ ih => rw [level]; omega
  | left _ ih => rw [level]; omega
  | right _ ih => rw [level]; omega

/-- The tokens of a tree inside begin behind those before it. -/
theorem Nested.exists_tokens_eq (h : f.Nested depth before e) :
    ∃ after, e.tokens = before ++ f.first :: after := by
  induction h with
  | whole => exact f.exists_tokens_eq_cons
  | @body _ _ _ c _ _ ih =>
    obtain ⟨after, hafter⟩ := ih
    exact ⟨after ++ [c], by rw [tokens, hafter]; simp⟩
  | operand _ ih =>
    obtain ⟨after, hafter⟩ := ih
    exact ⟨after, by rw [tokens, hafter]; rfl⟩
  | @left _ _ _ m _ r _ ih =>
    obtain ⟨after, hafter⟩ := ih
    exact ⟨after ++ m :: r.tokens, by rw [tokens, hafter]; simp⟩
  | right _ ih =>
    obtain ⟨after, hafter⟩ := ih
    exact ⟨after, by rw [tokens, hafter]; simp⟩

/-- Of all trees that stand some levels deeper in another one, none begins before this one. -/
structure Leftmost (f : Sentence) (depth : Nat) (before : List Token) (e : Sentence) : Prop where
  nested : f.Nested depth before e
  length_le : ∀ (g : Sentence) (later : List Token), g.Nested depth later e →
    before.length ≤ later.length

namespace Leftmost

/-- There is one place that is leftmost. -/
theorem unique (h : f.Leftmost depth before e) (h' : g.Leftmost depth later e) :
    before = later ∧ f.first = g.first := by
  obtain ⟨after, hafter⟩ := h.nested.exists_tokens_eq
  obtain ⟨after', hafter'⟩ := h'.nested.exists_tokens_eq
  have hle := h.length_le g later h'.nested
  have hge := h'.length_le f before h.nested
  obtain ⟨hbefore, hrest⟩ :=
    List.append_inj (hafter.symm.trans hafter') (Nat.le_antisymm hle hge)
  injection hrest with hfirst _
  exact ⟨hbefore, hfirst⟩

theorem whole (e : Sentence) : e.Leftmost 0 [] e := ⟨.whole, fun _ _ _ => Nat.zero_le _⟩

/-- What is leftmost between parentheses is one level deeper outside of them. -/
theorem body (h : f.Leftmost depth before e) (o c : Token) :
    f.Leftmost (depth + 1) (o :: before) (.group o e c) := by
  refine ⟨.body h.nested, ?_⟩
  intro g later hg
  cases hg with
  | body hg => exact Nat.succ_le_succ (h.length_le _ _ hg)

/-- What is leftmost in a negated tree is one level deeper with the sign. -/
theorem operand (h : f.Leftmost depth before e) (s : Token) :
    f.Leftmost (depth + 1) (s :: before) (.negate s e) := by
  refine ⟨.operand h.nested, ?_⟩
  intro g later hg
  cases hg with
  | operand hg => exact Nat.succ_le_succ (h.length_le _ _ hg)

/-- What is leftmost in the left operand is leftmost in the whole. -/
theorem left (h : f.Leftmost (depth + 1) before l) (op : BinaryOp) (m : Token) (r : Sentence) :
    f.Leftmost (depth + 1) before (.binary op l m r) := by
  refine ⟨.left h.nested, ?_⟩
  intro g later hg
  cases hg with
  | left hg => exact h.length_le _ _ hg
  | right hg =>
    -- All of the left operand comes before the right one.
    obtain ⟨after, hafter⟩ := h.nested.exists_tokens_eq
    rw [hafter, List.append_assoc, List.length_append]
    exact Nat.le_add_right _ _

/-- What is leftmost in the right operand is so in the whole, if the left one does not reach as
    deep. -/
theorem right (h : f.Leftmost depth before r) (hl : l.level ≤ depth + 1) (op : BinaryOp)
    (m : Token) : f.Leftmost (depth + 1) (l.tokens ++ m :: before) (.binary op l m r) := by
  refine ⟨.right h.nested, ?_⟩
  intro g later hg
  cases hg with
  | left hg => exact absurd hg.lt_level (Nat.not_lt.2 hl)
  | right hg =>
    have hle := h.length_le _ _ hg
    simp only [List.length_append, List.length_cons]
    omega

end Leftmost

end Sentence

/-! ### Reading up to what is too deep -/

theorem firstReport_kept (as : List Action) : firstReport (kept as) = firstReport as := by
  induction as with
  | nil => rfl
  | cons x as ih =>
    rw [kept_cons, firstReport_cons, ← ih]
    cases x <;> simp [Action.isKept, Action.report?]

theorem sites_kept (as : List Action) :
    (kept as).filterMap Action.site? = as.filterMap Action.site? := by
  induction as with
  | nil => rfl
  | cons x as ih =>
    rw [kept_cons, List.filterMap_cons, ← ih]
    cases x <;> simp [List.filterMap_cons, Action.isKept, Action.site?]

theorem sites_advance (s : TokenStream) : (advance s).actions.filterMap Action.site? = [] :=
  sites_settle s.tail

/-- A tree is read without a report. -/
theorem Sentence.firstReport_outline (e : Sentence) : firstReport e.outline = none := by
  induction e with
  | number t => rfl
  | group o body c ih => simp [outline, Action.report?, ih]
  | negate s operand ih => simp [outline, Action.report?, ih]
  | binary op left m right ihl ihr => simp [outline, Action.report?, ihl, ihr]

/-- The outline of a tree is about its numbers. -/
theorem Sentence.sites_outline (e : Sentence) (waiting : Nat) :
    e.outline.filterMap Action.site? = (e.operands waiting).map Prod.fst := by
  induction e generalizing waiting with
  | number t => rfl
  | group o body c ih =>
    simp [outline, operands, List.filterMap_cons, Action.site?, ih waiting]
  | negate s operand ih =>
    simp [outline, operands, List.filterMap_cons, Action.site?, ih waiting]
  | binary op left m right ihl ihr =>
    simp [outline, operands, List.filterMap_cons, Action.site?, ihl waiting, ihr (waiting + 1)]

/-- Some actions report at a token that an operand is too deep, and nothing before. Up to there,
    they write the numbers among some tokens. -/
def StopsTooDeep (as : List Action) (before : List Token) (t : Token) : Prop :=
  ∃ bs cs, as = bs ++ .report .nestedTooDeeply t :: cs ∧ firstReport bs = none ∧
    bs.filterMap Action.site? = numbersOf before

namespace StopsTooDeep

variable {as : List Action} {before : List Token} {t : Token}

theorem append (h : StopsTooDeep as before t) (ds : List Action) :
    StopsTooDeep (as ++ ds) before t := by
  obtain ⟨bs, cs, rfl, hreport, hsites⟩ := h
  refine ⟨bs, cs ++ ds, ?_, hreport, hsites⟩
  rw [List.append_assoc, List.cons_append]

/-- Before it, the numbers among the tokens are written. -/
theorem prepend (h : StopsTooDeep as before t) {ds : List Action} {ts : List Token}
    (hreport : firstReport ds = none) (hsites : ds.filterMap Action.site? = numbersOf ts) :
    StopsTooDeep (ds ++ as) (ts ++ before) t := by
  obtain ⟨bs, cs, rfl, hreport', hsites'⟩ := h
  refine ⟨ds ++ bs, cs, (List.append_assoc ..).symm, ?_, ?_⟩
  · rw [firstReport_append, hreport, hreport']
    rfl
  · rw [List.filterMap_append, hsites, hsites', numbersOf_append]

/-- Taking a token that is no number, and letting it play its role, writes no number. -/
theorem advance (h : StopsTooDeep as before t) {s : TokenStream} {kind : Kind}
    (hk : s.current.kind = kind) (hne : kind ≠ .number) (role : Role) :
    StopsTooDeep ((advance s).actions ++ .apply role s.current :: as) (s.current :: before) t := by
  have hds : StopsTooDeep (((Parser.advance s).actions ++ [.apply role s.current]) ++ as)
      ([s.current] ++ before) t := by
    refine h.prepend ?_ ?_
    · simp [Action.report?]
    · rw [List.filterMap_append, sites_advance, numbersOf_cons_of_ne _ hk hne]
      rfl
  rwa [List.append_assoc] at hds

end StopsTooDeep

/-- Wherever some tokens stand that the grammar gives the tree `e`, which nests too deeply, they are
    read up to the leftmost operand in it that is too deep. -/
def ReadTooDeep (c : Nonterminal) (ts : List Token) (e : Sentence) : Prop :=
  ∀ ⦃levels : Nat⦄ ⦃least : Precedence⦄ ⦃s s₁ s₂ : TokenStream⦄ ⦃as bs : List Action⦄
    ⦃more : List Token⦄,
    s.Settled → s.tokens = ts ++ more → levels + 1 < e.level →
      least.nonterminal.binding ≤ c.binding → frontBinding more ≤ c.binding →
        Reads (.head levels) s as s₁ → Reads (.tail levels least) s₁ bs s₂ →
          ∃ (f : Sentence) (before : List Token),
            f.Leftmost (levels + 1) before e ∧ StopsTooDeep (as ++ bs) before f.first

/-- An operand that is too deep itself is refused, and in others the reading stops further on. -/
theorem ReadTooDeep.operand {c : Nonterminal} {ts more : List Token} {e : Sentence}
    (hp : ReadTooDeep c ts e) (d : Derives c ts e) {levels : Nat} {least : Precedence}
    {s s' : TokenStream} {as : List Action} (h : Reads (.operand levels least) s as s')
    (hs : s.Settled) (ht : s.tokens = ts ++ more) (hlevel : levels < e.level)
    (hc : least.nonterminal.binding ≤ c.binding) (hfront : frontBinding more ≤ c.binding) :
    ∃ (f : Sentence) (before : List Token),
      f.Leftmost levels before e ∧ StopsTooDeep as before f.first := by
  obtain ⟨us, hus⟩ := e.exists_tokens_eq_cons
  rw [d.tokens_eq] at hus
  have hcurrent : s.current = e.first := by
    rw [hus] at ht
    exact (hs.of_tokens_eq ht).1
  cases h with
  | refused =>
    refine ⟨e, [], .whole e, [], [], ?_, rfl, rfl⟩
    rw [hcurrent]
    rfl
  | missing hn =>
    obtain ⟨t, us', hts, hstart⟩ := d.exists_starts
    rw [hts] at ht
    rw [(hs.of_tokens_eq ht).1] at hn
    exact absurd hn hstart
  | begun h₁ h₂ =>
    obtain ⟨f, before, hleftmost, hstops⟩ := hp hs ht hlevel hc hfront h₁ h₂
    have henter : StopsTooDeep ([.enter] ++ _) ([] ++ before) f.first := hstops.prepend rfl rfl
    refine ⟨f, before, hleftmost, ?_⟩
    exact henter.append [.leave]

namespace ReadTooDeep

/-- A number alone does not nest too deeply. -/
theorem number {t : Token} : ReadTooDeep .primary [t] (.number t) := by
  intro levels least s s₁ s₂ as bs more _ _ hlevel
  rw [Sentence.level] at hlevel
  omega

/-- What is too deep between parentheses is found behind the opening one. -/
theorem group {o c : Token} {ts : List Token} {e : Sentence} (hp : ReadTooDeep .expr ts e)
    (d : Derives .expr ts e) (hk : o.kind = .delimiter .leftParen)
    (hc : c.kind = .delimiter .rightParen) :
    ReadTooDeep .primary (o :: ts ++ [c]) (.group o e c) := by
  intro levels least s s₁ s₂ as bs more hs ht hlevel _ _ h₁ h₂
  rw [List.append_assoc] at ht
  obtain ⟨rfl, hnext⟩ := hs.of_tokens_eq ht
  have hlt : levels < e.level := by
    rw [Sentence.level] at hlevel
    omega
  have hb : frontBinding ([c] ++ more) ≤ Nonterminal.expr.binding := by
    rw [frontBinding_closing hc]
    decide
  obtain ⟨cs, s₃, h, rfl, rfl⟩ := h₁.head_of_leftParen hk
  obtain ⟨f, before, hleftmost, hstops⟩ := hp.operand d h s.settled_next hnext hlt (by decide) hb
  refine ⟨f, _, hleftmost.body s.current c, ?_⟩
  exact ((hstops.advance hk (by decide) .grouping).append _).append bs

/-- A phrase of a tighter nonterminal is read in a looser one in the same way. -/
theorem loosen {c c' : Nonterminal} {ts : List Token} {e : Sentence} (hp : ReadTooDeep c ts e)
    (hle : c'.binding ≤ c.binding) : ReadTooDeep c' ts e := by
  intro levels least s s₁ s₂ as bs more hs ht hlevel hc hfront
  exact hp hs ht hlevel (Nat.le_trans hc hle) (Nat.le_trans hfront hle)

/-- What is too deep in a negated tree is found behind the sign. -/
theorem negate {t : Token} {ts : List Token} {e : Sentence} (hp : ReadTooDeep .unary ts e)
    (d : Derives .unary ts e) (hk : t.kind = .operator .minus false) :
    ReadTooDeep .unary (t :: ts) (.negate t e) := by
  intro levels least s s₁ s₂ as bs more hs ht hlevel _ hfront h₁ h₂
  obtain ⟨rfl, hnext⟩ := hs.of_tokens_eq ht
  have hlt : levels < e.level := by
    rw [Sentence.level] at hlevel
    omega
  obtain ⟨cs, h, rfl⟩ := h₁.head_of_minus hk
  obtain ⟨f, before, hleftmost, hstops⟩ :=
    hp.operand d h s.settled_next hnext hlt (by decide) hfront
  refine ⟨f, _, hleftmost.operand s.current, ?_⟩
  exact ((hstops.advance hk (by decide) .unary).append _).append bs

/-- What is too deep in two operands is found in the left one first. -/
theorem binary {op : BinaryOp} {m : Token} {ls rs : List Token} {l r : Sentence}
    (hl : ReadTooDeep op.nonterminal ls l) (dl : Derives op.nonterminal ls l)
    (hm : m.kind = op.kind) (hr : ReadTooDeep op.rightNonterminal rs r)
    (dr : Derives op.rightNonterminal rs r) :
    ReadTooDeep op.nonterminal (ls ++ m :: rs) (.binary op l m r) := by
  intro levels least s s₁ s₂ as bs more hs ht hlevel hc hfront h₁ h₂
  rw [List.append_assoc] at ht
  rw [Sentence.level] at hlevel
  have hb := BinaryOp.frontBinding_le hm rs more
  by_cases hleft : levels + 1 < l.level
  · -- The left operand is too deep, and it comes first.
    obtain ⟨f, before, hleftmost, hstops⟩ := hl hs ht hleft hc hb h₁ h₂
    exact ⟨f, before, hleftmost.left op m r, hstops⟩
  · -- The left operand is read as a whole, and then the right one is too deep.
    obtain ⟨s₃, cs, ds, hs₃, ht₃, h₃, hcat, hkept⟩ :=
      dl.readAsPhrase hs ht (Nat.not_lt.1 hleft) hc hb h₁ h₂
    obtain ⟨rfl, hnext⟩ := hs₃.of_tokens_eq ht₃
    rw [op.binding_nonterminal] at hc hfront
    obtain ⟨as', bs', s₄, h₄, -, rfl⟩ := h₃.tail_of_kind hm ((op.le_binding_iff least).2 hc)
    have hlt := (op.lt_next_iff _).2 hfront
    obtain ⟨f, before, hleftmost, hstops⟩ :=
      hr.operand dr h₄ (TokenStream.settled_next _) hnext (by omega)
        (by rw [op.nonterminal_next]; exact Nat.le_refl _)
        (by rw [op.binding_rightNonterminal]; exact Nat.le_of_lt hlt)
    refine ⟨f, _, hleftmost.right (Nat.not_lt.1 hleft) op s₃.current, ?_⟩
    have hmark := hstops.advance hm (by cases op <;> decide) .binary
    have hextend : StopsTooDeep ([.extend s₃.current] ++ _) ([] ++ _) f.first :=
      hmark.prepend rfl rfl
    -- Of the left operand, only the outline matters here.
    have hreport : firstReport cs = none := by
      rw [← firstReport_kept, hkept, l.firstReport_outline]
    have hsites : cs.filterMap Action.site? = numbersOf ls := by
      rw [← sites_kept, hkept, l.sites_outline 0, dl.map_fst_operands]
    have hwhole := (hextend.append ([.emit op.opcode, .merge] ++ bs')).prepend hreport hsites
    rw [hcat, dl.tokens_eq]
    simpa using hwhole

end ReadTooDeep

/-- Every phrase that nests too deeply is read up to the leftmost operand that is too deep. -/
theorem Derives.readTooDeep {c : Nonterminal} {ts : List Token} {e : Sentence}
    (d : Derives c ts e) : ReadTooDeep c ts e := by
  induction d with
  | number _ => exact .number
  | group hk d hc ih => exact ih.group d hk hc
  | primary _ ih => exact ih.loosen (by decide)
  | negate hk d ih => exact ih.negate d hk
  | unary _ ih => exact ih.loosen (by decide)
  | term _ ih => exact ih.loosen (by decide)
  | binary dl hm dr ihl ihr => exact ihl.binary dl hm ihr dr

/-! ### Source texts -/

/-- If all numbers before the place find room, the first thing said is that it is too deep there. -/
theorem StopsTooDeep.head?_remarksAll {as : List Action} {before : List Token} {t : Token}
    (h : StopsTooDeep as before t) (hflaws : scannedFlaws as = []) (hread : Readable before)
    {a : Assembly} (ha : a.pending ≤ a.chunk.constants.size)
    (hroom : ∀ p ∈ (numbersOf before).zipIdx a.chunk.constants.size, p.2 < constantMax) :
    (a.remarksAll as).head? = some ⟨.grammatical .nestedTooDeeply, t.position⟩ := by
  obtain ⟨bs, cs, rfl, hreport, hsites⟩ := h
  rw [scannedFlaws_append, List.append_eq_nil_iff] at hflaws
  have hnil : a.remarksAll bs = [] := by
    refine Assembly.remarksAll_eq_nil hreport hflaws.1 ?_ ha (hsites ▸ hroom)
    intro u hu
    rw [hsites] at hu
    obtain ⟨hmem, hk⟩ := List.mem_filter.1 hu
    exact hread u hmem (by simpa using hk)
  rw [Assembly.remarksAll_append, hnil]
  rfl

/-- Of a sentence that nests too deeply, the first thing said is that it does, at its leftmost
    operand that is too deep, if all numbers before that find room. -/
theorem exists_leftmost_head? {source : String} {e : Sentence}
    (d : Derives .expr (scan source).body e) (hlevel : levelMax < e.level) :
    ∃ (f : Sentence) (before : List Token), f.Leftmost levelMax before e ∧
      ∀ chunk : Chunk,
        (∀ p ∈ (numbersOf before).zipIdx chunk.constants.size, p.2 < constantMax) →
          (compileInto chunk source).diagnostics.head?
            = some ⟨.grammatical .nestedTooDeeply, f.first.position⟩ := by
  have hflaws := (TokenStream.flaws_eq_nil_iff _).2 d.isError_eq_false
  obtain ⟨as, s', h, hparse⟩ := exists_reads_parse (scan source)
  have hs := (scan source).settled_settle
  have ht : (scan source).settle.tokens = (scan source).body ++ [] := by
    rw [TokenStream.tokens_settle, TokenStream.tokens_eq_body hflaws, List.append_nil]
  obtain ⟨f, before, hleftmost, hstops⟩ :=
    d.readTooDeep.operand d h hs ht hlevel (by decide) (by decide)
  refine ⟨f, before, hleftmost, fun chunk hroom => ?_⟩
  have hsettle : StopsTooDeep ((Parser.settle (scan source)).actions ++ as) ([] ++ before)
      f.first := hstops.prepend (firstReport_settle _) (sites_settle _)
  have hscanned : scannedFlaws ((Parser.settle (scan source)).actions ++ as) = [] := by
    have hscan := scannedFlaws_settle (scan source)
    rw [← h.flaws_eq hs, hflaws] at hscan
    simp only [List.append_eq_nil_iff] at hscan
    rw [scannedFlaws_append, hscan.1, hscan.2.1]
    rfl
  have hread : Readable before := by
    obtain ⟨after, hafter⟩ := hleftmost.nested.exists_tokens_eq
    rw [d.tokens_eq] at hafter
    refine (readable_scan source).subset ?_
    rw [hafter]
    exact List.subset_append_left ..
  have hhead := hsettle.head?_remarksAll hscanned hread (a := { chunk }) (Nat.zero_le _) hroom
  rw [diagnostics_compileInto hparse, Assembly.remarksAll_append, List.head?_append, hhead]
  rfl

/-- A sentence that nests no deeper than is allowed is told of exactly those numbers that find no
    room. -/
theorem diagnostics_of_level_le {source : String} {e : Sentence}
    (d : Derives .expr (scan source).body e) (hlevel : e.level ≤ levelMax) (chunk : Chunk) :
    (compileInto chunk source).diagnostics
      = ((e.operands 0).zipIdx chunk.constants.size).flatMap limitRemarks := by
  have hflaws := (TokenStream.flaws_eq_nil_iff _).2 d.isError_eq_false
  obtain ⟨x, hx, -⟩ := d.exists_expr? (readable_scan source)
  have hremarks := Assembly.remarksAll_outline hx (a := { chunk }) (Nat.zero_le _)
  show (Assembly.performAll { chunk } (parse (scan source))).diagnostics.toList = _
  rw [performAll_parse hflaws d hlevel, Assembly.perform_diagnostics,
    Assembly.performAll_diagnostics, hremarks]
  exact List.append_nil _

/-- The index that is given to a number is where it is found among the constants. -/
theorem constant?_of_mem_operands {source : String} {e : Sentence}
    (d : Derives .expr (scan source).body e) (hlevel : e.level ≤ levelMax) {chunk : Chunk}
    {p : (Token × Nat) × Nat} (hp : p ∈ (e.operands 0).zipIdx chunk.constants.size) :
    (compileInto chunk source).chunk.constant? p.2 = Literal.read? p.1.1.lexeme := by
  have hflaws := (TokenStream.flaws_eq_nil_iff _).2 d.isError_eq_false
  obtain ⟨x, hx, hliterals⟩ := d.exists_expr? (readable_scan source)
  have hconstants := (performAll_parse_chunk hflaws d hlevel hx chunk).1
  obtain ⟨hle, hget⟩ := List.mk_mem_zipIdx_iff_le_and_getElem?_sub.1 hp
  have hread := congrArg (·[p.2 - chunk.constants.size]?) hliterals
  simp only [← d.map_fst_operands 0, List.getElem?_map, hget, Option.map_some] at hread
  obtain ⟨value, hvalue, hsome⟩ := Option.map_eq_some_iff.1 hread
  show (Assembly.performAll { chunk } (parse (scan source))).chunk.constants[p.2]? = _
  rw [← Array.getElem?_toList, hconstants, List.getElem?_append_right hle, Array.length_toList,
    hvalue, hsome]

/-- **Limits are told exactly, and one does not lead to another.** About a sentence that does not
    nest too deeply, nothing is said but this, in the order of the text: that a number is one too
    many among the constants, and right after it that the stack is too small, where this number is
    the first one too many there. If a sentence nests too deeply, and all numbers before its
    leftmost operand that is too deep find room, then the first thing said is that it is too deep
    there. -/
theorem compileInto_limits (chunk : Chunk) (source : String) (e : Sentence)
    (d : Derives .expr (scan source).body e) :
    (e.operands 0).map Prod.fst = numbersOf (scan source).body ∧
    (e.level ≤ levelMax →
      (compileInto chunk source).diagnostics
          = ((e.operands 0).zipIdx chunk.constants.size).flatMap limitRemarks ∧
        ∀ p ∈ (e.operands 0).zipIdx chunk.constants.size,
          (compileInto chunk source).chunk.constant? p.2 = Literal.read? p.1.1.lexeme) ∧
    (levelMax < e.level →
      (∃ (f : Sentence) (before : List Token), f.Leftmost levelMax before e) ∧
      ∀ (f : Sentence) (before : List Token), f.Leftmost levelMax before e →
        (∀ p ∈ (numbersOf before).zipIdx chunk.constants.size, p.2 < constantMax) →
          (compileInto chunk source).diagnostics.head?
            = some ⟨.grammatical .nestedTooDeeply, f.first.position⟩) ∧
    Complaint.tooManyConstants.message = "Too many constants in one chunk." ∧
    Complaint.tooDeepForStack.message = "Expression too deep for the value stack." ∧
    Complaint.nestedTooDeeply.message = "Expression nested too deeply." := by
  refine ⟨d.map_fst_operands 0, ?_, ?_, rfl, rfl, rfl⟩
  · intro hlevel
    refine ⟨diagnostics_of_level_le d hlevel chunk, ?_⟩
    intro p hp
    exact constant?_of_mem_operands d hlevel hp
  · intro hlevel
    obtain ⟨g, later, hleftmost, hhead⟩ := exists_leftmost_head? d hlevel
    refine ⟨⟨g, later, hleftmost⟩, ?_⟩
    intro f before hf hroom
    -- Every leftmost operand begins where the one at which reading stops does.
    obtain ⟨rfl, hfirst⟩ := hf.unique hleftmost
    rw [hfirst]
    exact hhead chunk hroom

/-- Signs before a digit nest one level deeper each. -/
theorem exists_leftmost_signs (n : Nat) (position : Position) :
    ∃ (ts : List Token) (t : Token) (e : Sentence) (finish : Position),
      Cursor.Gives ⟨List.replicate n '-' ++ ['1'], position⟩ (ts ++ [t]) ⟨[], finish⟩ ∧
      Derives .unary (ts ++ [t]) e ∧ (Sentence.number t).Leftmost n ts e ∧ numbersOf ts = [] ∧
      t.position = ⟨position.line, position.column + n⟩ := by
  induction n generalizing position with
  | zero =>
    have hnumeral : IsNumeral ['1'] := .inl (by decide)
    have hgives := Cursor.gives_numeral hnumeral (stops_nil _) (stops_nil _) position
    exact ⟨[], _, _, _, hgives, (Derives.number rfl).primary, .whole _, rfl, rfl⟩
  | succ n ih =>
    obtain ⟨ts, t, e, finish, hgives, hd, hleftmost, hnumbers, hposition⟩ :=
      ih (position.next '-')
    have hstops : Stops (· = '=') (List.replicate n '-' ++ ['1']) := by
      cases n with
      | zero => exact stops_cons.2 (by decide)
      | succ n => exact stops_cons.2 (by decide)
    have hsign := Cursor.gives_operator .minus hstops nofun position
    refine ⟨_ :: ts, t, .negate _ e, finish, hsign.trans hgives, .negate rfl hd,
      hleftmost.operand _, ?_, ?_⟩
    · have hne : Kind.operator .minus false ≠ .number := by decide
      rw [numbersOf_cons_of_ne _ rfl hne, hnumbers]
    · rw [hposition, Position.next_of_ne _ (by decide), Nat.add_assoc, Nat.add_comm 1]

/-- Behind 255 constants, the second number of `1 + 2` is one too many. Behind 300 constants, no
    number finds room, but of a digit behind 1024 signs it is said first that it is too deep. -/
theorem compileInto_limits_signs :
    (∃ e, Derives .expr (scan "1 + 2").body e ∧ e.level ≤ levelMax ∧
      (compileInto ⟨#[], Array.replicate 255 0⟩ "1 + 2").diagnostics
        = [⟨.grammatical .tooManyConstants, ⟨1, 5⟩⟩]) ∧
    ∃ e, Derives .expr (scan (String.ofList (List.replicate 1024 '-' ++ ['1']))).body e ∧
      levelMax < e.level ∧
      (compileInto ⟨#[], Array.replicate 300 0⟩
          (String.ofList (List.replicate 1024 '-' ++ ['1']))).diagnostics.head?
        = some ⟨.grammatical .nestedTooDeeply, ⟨1, 1025⟩⟩ := by
  constructor
  · have hbody : (scan "1 + 2").body = [⟨.number, "1", ⟨1, 1⟩⟩] ++
        ⟨.operator .plus false, "+", ⟨1, 3⟩⟩ :: [⟨.number, "2", ⟨1, 5⟩⟩] := by decide +kernel
    have d := hbody ▸ @Derives.binary .add _ _ _ _ _ (Derives.number rfl).toExpr rfl
      (Derives.number rfl).primary.unary
    refine ⟨_, d, by decide, ?_⟩
    rw [((compileInto_limits _ _ _ d).2.1 (by decide)).1]
    simp [Sentence.operands, limitRemarks, constantMax, stackMax]
  · obtain ⟨ts, t, e, finish, hgives, d, hleftmost, hnumbers, hposition⟩ :=
      exists_leftmost_signs 1024 .start
    have hbody : (scan (String.ofList (List.replicate 1024 '-' ++ ['1']))).body = ts ++ [t] := by
      show (Cursor.scan ⟨String.toList (String.ofList _), .start⟩).body = _
      rw [String.toList_ofList, hgives.scan_body, Cursor.scan_body_of_gap .nil, List.append_nil]
    have d' : Derives .expr (scan (String.ofList (List.replicate 1024 '-' ++ ['1']))).body e :=
      hbody ▸ d.toExpr
    have hlevel : levelMax < e.level := hleftmost.nested.lt_level
    have h := (compileInto_limits ⟨#[], Array.replicate 300 0⟩ _ e d').2.2.1 hlevel
    have hhead := h.2 _ _ hleftmost (by rw [hnumbers]; exact List.forall_mem_nil _)
    rw [Sentence.first, hposition] at hhead
    exact ⟨e, d', hlevel, hhead⟩

end Abacus
