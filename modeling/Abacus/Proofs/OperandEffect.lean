import Mathlib.Data.List.Induction
import Abacus.Proofs.RolesPlayed
import Abacus.Proofs.WaitingOperands

namespace Abacus

/-!
# What reading one operand does

An operand can be read anywhere: from any stream, at the end of any chunk, at any depth, and with
any number of operands that wait. If nothing is found wrong, always the same has happened.

* `Derives.prefix_of_ends` — an operand that cannot go on is the longest one.
* `Reads.exists_phrase` — the tokens that are taken stand at the front of the stream, and are such
  an operand.
* `Assembly.Quiet.exists_adds` — its tree is added, and the literals find room.
* `Action.depth`, `Reaches.depth_eq` — how deep reading is, counted along the actions.
* `OperandEffect` — all that happens; `Parser.operand_effect` — it does.
-/

/-! ### The tokens of an operand -/

theorem taken_kept (as : List Action) :
    (kept as).filterMap Action.taken? = as.filterMap Action.taken? := by
  induction as with
  | nil => rfl
  | cons x as ih =>
    rw [kept_cons, List.filterMap_cons, ← ih]
    cases x <;> simp [List.filterMap_cons, Action.isKept, Action.taken?]

/-- The outline of a phrase takes its tokens. -/
theorem Derives.taken_outline {c : Nonterminal} {ts : List Token} {e : Sentence}
    (d : Derives c ts e) : e.outline.filterMap Action.taken? = ts := by
  induction d with
  | number _ => rfl
  | group _ _ _ ih => simp [Sentence.outline, Action.taken?, ih]
  | primary _ ih => exact ih
  | negate _ _ ih => simp [Sentence.outline, List.filterMap_cons, Action.taken?, ih]
  | unary _ ih => exact ih
  | term _ ih => exact ih
  | binary _ _ _ ihl ihr => simp [Sentence.outline, List.filterMap_cons, Action.taken?, ihl, ihr]

/-- What follows the token in front is an end of the text. -/
theorem TokenStream.body_next_suffix (s : TokenStream) : s.next.body <:+ s.body :=
  (List.dropWhile_suffix _).trans (List.tail_suffix _)

namespace Reads

variable {part : Part} {s s' : TokenStream} {as : List Action}

/-- What is left of a stream is its end. -/
theorem body_suffix (h : Reads part s as s') : s'.body <:+ s.body := by
  induction h with
  | refused => exact List.suffix_refl _
  | missing _ => exact TokenStream.body_next_suffix _
  | begun _ _ ih₁ ih₂ => exact ih₂.trans ih₁
  | number _ => exact TokenStream.body_next_suffix _
  | negate _ _ ih => exact ih.trans (TokenStream.body_next_suffix _)
  | closed _ _ _ ih =>
    exact (TokenStream.body_next_suffix _).trans (ih.trans (TokenStream.body_next_suffix _))
  | unclosed _ _ _ ih => exact ih.trans (TokenStream.body_next_suffix _)
  | done _ => exact List.suffix_refl _
  | more _ _ _ _ ih₁ ih₂ => exact ih₂.trans (ih₁.trans (TokenStream.body_next_suffix _))

/-- If no error is scanned, the tokens that are read stand at the front with no error between
    them. -/
theorem body_eq (h : Reads part s as s') (hs : s.Settled) (hf : scannedFlaws as = [])
    {ts : List Token} (ht : s.tokens = ts ++ s'.tokens) : s.body = ts ++ s'.body := by
  have hflaws := h.flaws_eq hs
  rw [hf, List.nil_append] at hflaws
  obtain ⟨us, hus⟩ := h.body_suffix
  -- Of what is left out, none is an error, so all of it counts.
  have herror : us.filter (·.isError) = [] := by
    rw [TokenStream.flaws, TokenStream.flaws, ← hus, List.filter_append] at hflaws
    exact List.self_eq_append_left.1 hflaws
  have hcount : us.filter (!·.isError) = us := by
    rw [List.filter_eq_nil_iff] at herror
    exact List.filter_eq_self.2 fun t ht => by simpa using herror t ht
  have hts : us = ts := by
    rw [TokenStream.tokens, ← hus, List.filter_append, hcount] at ht
    exact List.append_cancel_right ht
  rw [← hus, hts]

/-- An operand that is read without a complaint does not begin with an error. -/
theorem settled_of_firstReport {levels : Nat} {least : Precedence}
    (h : Reads (.operand levels least) s as s') (hq : firstReport as = none) : s.Settled := by
  cases h with
  | refused => cases hq
  | missing _ => simp [Action.report?] at hq
  | begun h₁ _ =>
    have hstarts := h₁.starts_of_head
    rw [TokenStream.Settled, Token.isError, decide_eq_false_iff_not]
    intro hk
    rw [hk] at hstarts
    exact hstarts rfl

end Reads

/-! ### No longer operand -/

/-- What a stream binds by is told by the text. -/
theorem TokenStream.frontBinding_body (s : TokenStream) : frontBinding s.body = s.binding := by
  obtain ⟨body, finish⟩ := s
  cases body <;> rfl

/-- What does not hold an operand of some precedence may follow it. -/
theorem Precedence.le_nonterminal_of_lt {p least : Precedence} (hp : p < .unary) (h : p < least) :
    p ≤ least.nonterminal.binding := by
  revert hp h
  cases p <;> cases least <;> decide

/-- If what follows an operand does not hold it, no longer row of tokens is an operand. -/
theorem Derives.prefix_of_ends {least : Precedence} {ts us more : List Token} {e e' : Sentence}
    (d : Derives least.nonterminal ts e) (d' : Derives least.nonterminal us e')
    (hleast : .assignment ≤ least) (hmore : frontBinding more < least) (h : us <+: ts ++ more) :
    us <+: ts := by
  rcases List.prefix_or_prefix_of_prefix h (List.prefix_append ts more) with hus | ⟨vs, rfl⟩
  · exact hus
  · have hvs : frontBinding vs < least := by
      cases vs with
      | nil => exact hleast
      | cons t vs =>
        obtain ⟨more', rfl⟩ := (List.prefix_append_right_inj ts).1 h
        exact hmore
    -- The longer row, read by itself, is read up to its end, but also only up to the shorter one.
    obtain ⟨hs, ht⟩ := d'.settled .start
    have hr := reads_operand (max e.level e'.level) hleast ⟨ts ++ vs, .start⟩
    have hfront := Precedence.le_nonterminal_of_lt (frontBinding_lt_unary vs) hvs
    obtain ⟨-, hshort, -⟩ := d.readAsPhrase.operand d hr hs ht (Nat.le_max_left _ _)
      (Nat.le_refl _) hfront hvs
    obtain ⟨-, hlong, -⟩ := d'.readAsPhrase.operand d' hr hs (ht.trans (List.append_nil _).symm)
      (Nat.le_max_right _ _) (Nat.le_refl _) (Nat.zero_le _) hleast
    have hnil : vs = [] := hshort.symm.trans hlong
    simp [hnil]

/-- An operand that is read with nothing wrong is a phrase at the front of the stream, which is not
    too deep, and no operator that could go on with it follows. -/
theorem Reads.exists_phrase {levels : Nat} {least : Precedence} {s s' : TokenStream}
    {as : List Action} (h : Reads (.operand levels least) s as s') (hreport : firstReport as = none)
    (hflaws : scannedFlaws as = []) :
    ∃ ts e, Derives least.nonterminal ts e ∧ s.body = ts ++ s'.body ∧ e.level ≤ levels ∧
      kept as = e.outline ∧ s'.binding < least := by
  have hs := h.settled_of_firstReport hreport
  obtain ⟨hends, ts, e, d, htokens, hlevel⟩ := h.derives hs hreport
  -- What does not hold the operand may follow it, so the operand is read as the phrase it is.
  have hfront : frontBinding s'.tokens < least := by
    rw [← (h.settled hs).binding_eq]
    exact hends
  have hfollow := Precedence.le_nonterminal_of_lt (frontBinding_lt_unary s'.tokens) hfront
  obtain ⟨-, -, hkept⟩ :=
    d.readAsPhrase.operand d h hs htokens hlevel (Nat.le_refl _) hfollow hfront
  exact ⟨ts, e, d, h.body_eq hs hflaws htokens, hlevel, hkept, hends⟩

/-! ### The tree of an operand -/

/-- A sentence that is written without a complaint has an arithmetic tree, whose literals find room
    among the constants. -/
theorem Sentence.exists_expr?_of_quiet {e : Sentence} {a : Assembly} (h : a.Quiet e.outline) :
    ∃ x, e.expr? = some x ∧ a.chunk.constants.size + x.literals.length ≤ constantMax := by
  induction e generalizing a with
  | number t =>
    have hremarks : a.remarks (.literal t) = [] := by
      simpa [outline, Assembly.remarks, Assembly.perform] using h
    cases hv : Literal.read? t.lexeme with
    | none => simp [Assembly.remarks, hv] at hremarks
    | some value =>
      refine ⟨.number value, by rw [expr?, hv]; rfl, ?_⟩
      simp only [Assembly.remarks, hv, List.append_eq_nil_iff] at hremarks
      by_cases hroom : a.chunk.constants.size < constantMax
      · exact hroom
      · simp [hroom] at hremarks
  | group o body c ih =>
    have hbody : a.Quiet body.outline := by
      simpa [outline, Assembly.remarks, Assembly.perform] using h
    exact ih hbody
  | negate s operand ih =>
    have hoperand : a.Quiet operand.outline := by
      simpa [outline, Assembly.remarks, Assembly.perform] using h
    obtain ⟨y, hy, hroom⟩ := ih hoperand
    exact ⟨.negate y, by rw [expr?, hy]; rfl, hroom⟩
  | binary op left m right ihl ihr =>
    have hparts : a.Quiet left.outline ∧ (a.performAll left.outline).Quiet right.outline := by
      simpa [outline, Assembly.remarks, Assembly.perform] using h
    obtain ⟨l, hl, -⟩ := ihl hparts.1
    obtain ⟨r, hr, hroom⟩ := ihr hparts.2
    -- The right operand finds the literals of the left one among the constants.
    rw [(Sentence.adds_outline hl a).size_eq] at hroom
    refine ⟨.binary op l r, by rw [expr?, hl, hr]; rfl, ?_⟩
    rw [Expr.literals, List.length_append]
    omega

/-- Actions that keep the outline of a sentence, and find nothing wrong, add its tree. -/
theorem Assembly.Quiet.exists_adds {a : Assembly} {as : List Action} {e : Sentence}
    (h : a.Quiet as) (hkept : kept as = e.outline) :
    ∃ x, e.expr? = some x ∧ a.chunk.constants.size + x.literals.length ≤ constantMax ∧
      a.Adds (a.performAll as) x := by
  have hperform := a.performAll_kept h.firstReport_eq.2
  rw [hkept] at hperform
  have houtline : a.Quiet e.outline := by
    rw [Quiet, hperform]
    exact h
  obtain ⟨x, hx, hfit⟩ := Sentence.exists_expr?_of_quiet houtline
  refine ⟨x, hx, hfit, ?_⟩
  rw [← hperform]
  exact Sentence.adds_outline hx a

/-! ### Depth -/

/-- How deep reading is behind an action, from how deep it is before it. -/
def Action.depth (before : Nat) : Action → Nat
  | .enter => before + 1
  | .leave => before - 1
  | .scan _ | .consume _ | .extend _ | .apply _ _ => before
  | .literal _ | .emit _ | .merge | .report _ _ => before

/-- Where operands begin and end in pairs, the depth tells how many have begun and not ended. -/
theorem Nests.depth_eq {levels : Nat} {as p : List Action} (h : Nests levels as) (hp : p <+: as)
    (depth : Nat) :
    p.foldl Action.depth depth + p.count .leave = depth + p.count .enter := by
  induction p using List.reverseRecOn with
  | nil => rfl
  | append_singleton p x ih =>
    have ih' := ih ((List.prefix_append p [x]).trans hp)
    have hbounded := (h.bounded (p ++ [x]) hp).1
    rw [List.count_append, List.count_append] at hbounded
    rw [List.foldl_append, List.foldl_cons, List.foldl_nil, List.count_append, List.count_append]
    cases x with
    | enter =>
      show p.foldl Action.depth depth + 1 + (p.count .leave + 0) = depth + (p.count .enter + 1)
      omega
    | leave =>
      -- An operand that ends has begun, so the depth is not zero.
      have hbounded' : p.count .leave + 1 ≤ p.count .enter + 0 := hbounded
      show p.foldl Action.depth depth - 1 + (p.count .leave + 1) = depth + (p.count .enter + 0)
      omega
    | _ => exact ih'

/-- Where a part inside of another is come to, reading is as many levels deeper as operands on the
    way have begun. -/
theorem Reaches.depth_eq {part inner : Part} {s s' s₁ : TokenStream} {active : Nat}
    {as before : List Action} (h : Reaches part s active before inner s₁)
    (hreads : Reads part s as s') (depth : Nat) :
    before.foldl Action.depth depth = depth + active := by
  obtain ⟨bs, s₂, after, -, rfl⟩ := h.exists_reads hreads
  rw [List.append_assoc] at hreads
  have hdepth := hreads.nests.depth_eq (List.prefix_append before (bs ++ after)) depth
  have hcount := h.count_eq
  omega

/-! ### One operand -/

/-- All that happens when an operand is read and nothing is found wrong. Its operators bind at least
    as tightly as `least`; it is read from `s`, some levels deep, and written to `a`. Its tokens are
    `ts`, the grammar gives them the tree `e`, and `x` is the arithmetic tree of this. -/
structure OperandEffect (a : Assembly) (depth : Nat) (least : Precedence) {s : TokenStream}
    (r : Parsed s) (ts : List Token) (e : Sentence) (x : Expr Float) : Prop where
  /-- The tokens that are taken are those at the front. -/
  taken : r.actions.filterMap Action.taken? = ts
  body_eq : s.body = ts ++ r.rest.body
  /-- They are one operand, and the grammar gives it one tree. -/
  derives : Derives least.nonterminal ts e
  only : ∀ e', Derives least.nonterminal ts e' → e' = e
  /-- The token at the front does not hold the operand, and no longer row of tokens is one. -/
  ends : (Rule.of r.rest.current.kind).binding < least
  longest : ∀ us e', us <+: s.body → Derives least.nonterminal us e' → us <+: ts
  /-- The postfix code of its tree is added, and one more operand waits. -/
  tree : e.expr? = some x
  adds : a.Adds (a.performAll r.actions) x
  /-- It is not too deep; the depth is what it was, and on the way it tells how many levels are
      left. -/
  level_le : depth + e.level ≤ levelMax
  depth_eq : r.actions.foldl Action.depth depth = depth
  levels_eq : ∀ active before inner s',
    Reaches (.operand (levelMax - depth) least) s active before inner s' →
      before.foldl Action.depth depth + inner.levels = levelMax
  /-- An empty stack has room for what it needs. -/
  need_le : x.need ≤ stackMax
  /-- Before every instruction, and behind it once it is counted, the operands that wait have become
      more by as many values as the code so far leaves on the stack of a machine that runs it. Only
      between the instruction of an operator and its count there is one operand more. -/
  counted : ∀ before after, r.actions = before ++ after →
    ∃ gain, (∀ c, (a.performAll r.actions).chunk.Begins c →
        c.Gains a.chunk.length (a.performAll before).chunk.length x.need gain) ∧
      (a.performAll before).pending = a.pending + gain + uncounted after

/-- **The effect of reading one operand.** Whatever a chunk in the making holds, however many
    operands wait, whatever stands at the front of the stream, and however deep reading is: if
    nothing new is found wrong, exactly one operand has been read, as long as can be. Its postfix
    code has been added, one more operand waits, the depth is what it was, and all the way the
    operands that wait are the values that the code so far leaves on a stack. -/
theorem Parser.operand_effect (a : Assembly) (s : TokenStream) (depth : Nat) {least : Precedence}
    (hleast : .assignment ≤ least)
    (hquiet : a.Quiet (operand (levelMax - depth) least s).actions) :
    ∃ ts e x, OperandEffect a depth least (operand (levelMax - depth) least s) ts e x := by
  have hreads := reads_operand (levelMax - depth) hleast s
  obtain ⟨hreport, hflaws⟩ := hquiet.firstReport_eq
  obtain ⟨ts, e, d, hbody, hlevel, hkept, hends⟩ := hreads.exists_phrase hreport hflaws
  obtain ⟨x, hx, hfit, hadds⟩ := hquiet.exists_adds hkept
  have hlt := e.level_pos
  refine ⟨ts, e, x, ?_⟩
  constructor
  case taken => rw [← taken_kept, hkept, d.taken_outline]
  case body_eq => exact hbody
  case derives => exact d
  case only => exact fun e' d' => d'.unique d
  case ends => exact hends
  case longest =>
    intro us e' hus d'
    rw [hbody] at hus
    refine d.prefix_of_ends d' hleast ?_ hus
    rw [TokenStream.frontBinding_body]
    exact hends
  case tree => exact hx
  case adds => exact hadds
  case level_le => omega
  case depth_eq =>
    have hdepth := hreads.nests.depth_eq (List.prefix_refl _) depth
    have hbalanced := hreads.nests.balanced
    omega
  case levels_eq =>
    intro active before inner s' hreaches
    have hdepth := hreaches.depth_eq hreads depth
    have hlevels : active + inner.levels = levelMax - depth := hreaches.levels_eq
    omega
  case need_le =>
    have hneed := x.need_le_length
    have hmax : constantMax = stackMax := rfl
    omega
  case counted =>
    intro before after heq
    have hinner := hreads.innerTo (hreads.settled_of_firstReport hreport)
    exact hadds.exists_gains hfit hinner hquiet (hreads.trades hreport) heq

/-- A chunk in the making that holds the code of two constants, after an error, where three operands
    are taken to wait. -/
def Assembly.midway : Assembly where
  chunk := { code := #[0, 0, 0, 1], constants := #[1, 2] }
  pending := 3
  diagnostics := #[⟨.grammatical .expectClosing, .start⟩]

/-- Five levels deep, a product is read in front of a sum. -/
theorem Parser.operand_effect_product :
    Assembly.midway.Quiet
        (operand (levelMax - 5) .factor (scan "3 * (4 - -5) / 6 + 7")).actions ∧
      ∃ ts e x, OperandEffect .midway 5 .factor
        (operand (levelMax - 5) .factor (scan "3 * (4 - -5) / 6 + 7")) ts e x := by
  have hquiet : Assembly.midway.Quiet
      (operand (levelMax - 5) .factor (scan "3 * (4 - -5) / 6 + 7")).actions := by
    unfold Assembly.Quiet
    decide +kernel
  exact ⟨hquiet, operand_effect _ _ 5 (by decide) hquiet⟩

end Abacus
