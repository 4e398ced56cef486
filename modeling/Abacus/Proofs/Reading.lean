import Abacus.Proofs.Expr
import Abacus.Proofs.Lookahead

namespace Abacus

open Abacus.Parser (advance)

/-!
# Runs of the parser

What the parser does, told as a relation with one rule for each way in which a part of an
expression can be read. Every fact about all expressions is an induction over these rules.

* `Reads part s as s'` — reading `part` from `s` takes the actions `as` and leaves `s'`.
* `reads_operand` — the relation tells what `Parser.operand` does.
* `Reads.head_of_number`, `Reads.tail_of_kind` and the like — the token at the front tells which
  rule was followed.
* `Reads.unique` — so there is one way only to read a part from a stream.
* `Reads.flaws_eq`, `Reads.suffix` — what is left of a stream.
* `Reads.innerTo` — the actions belong to an expression over the tokens of the stream.
-/

/-! ### The rules -/

/-- The parts of an expression, which are read inside each other. -/
inductive Part where
  /-- An operand whose operators bind at least as tightly as `least`. -/
  | operand (levels : Nat) (least : Precedence)
  /-- The beginning of an operand, up to its first operator. -/
  | head (levels : Nat)
  /-- The operators of an operand. -/
  | tail (levels : Nat) (least : Precedence)

/-- Reading a part from a stream takes some actions and leaves another stream. -/
inductive Reads : Part → TokenStream → List Action → TokenStream → Prop where
  | refused {least : Precedence} {s : TokenStream} :
      Reads (.operand 0 least) s [.report .nestedTooDeeply s.current] s
  | missing {levels : Nat} {least : Precedence} {s : TokenStream} :
      (Rule.of s.current.kind).starts = none →
        Reads (.operand (levels + 1) least) s
          (.enter :: (advance s).actions ++ [.report .expectExpression s.current, .leave]) s.next
  | begun {levels : Nat} {least : Precedence} {s s₁ s₂ : TokenStream} {as bs : List Action} :
      Reads (.head levels) s as s₁ → Reads (.tail levels least) s₁ bs s₂ →
        Reads (.operand (levels + 1) least) s (.enter :: as ++ bs ++ [.leave]) s₂
  | number {levels : Nat} {s : TokenStream} :
      s.current.kind = .number →
        Reads (.head levels) s
          ((advance s).actions ++ [.apply .number s.current, .literal s.current]) s.next
  | negate {levels : Nat} {s s₁ : TokenStream} {as : List Action} :
      s.current.kind = .operator .minus false → Reads (.operand levels .unary) s.next as s₁ →
        Reads (.head levels) s
          ((advance s).actions ++ .apply .unary s.current :: as ++ [.emit .negate]) s₁
  | closed {levels : Nat} {s s₁ : TokenStream} {as : List Action} :
      s.current.kind = .delimiter .leftParen →
        Reads (.operand levels .assignment) s.next as s₁ →
          s₁.current.kind = .delimiter .rightParen →
            Reads (.head levels) s
              ((advance s).actions ++ .apply .grouping s.current :: as ++ (advance s₁).actions)
              s₁.next
  | unclosed {levels : Nat} {s s₁ : TokenStream} {as : List Action} :
      s.current.kind = .delimiter .leftParen →
        Reads (.operand levels .assignment) s.next as s₁ →
          s₁.current.kind ≠ .delimiter .rightParen →
            Reads (.head levels) s
              ((advance s).actions ++ .apply .grouping s.current :: as
                ++ [.report .expectClosing s₁.current]) s₁
  | done {levels : Nat} {least : Precedence} {s : TokenStream} :
      (Rule.of s.current.kind).binding < least → Reads (.tail levels least) s [] s
  | more {levels : Nat} {least : Precedence} {op : BinaryOp} {s s₁ s₂ : TokenStream}
      {as bs : List Action} :
      s.current.kind = op.kind → least ≤ op.binding →
        Reads (.operand levels op.binding.next) s.next as s₁ →
          Reads (.tail levels least) s₁ bs s₂ →
            Reads (.tail levels least) s
              (.extend s.current :: (advance s).actions
                ++ .apply .binary s.current :: as ++ [.emit op.opcode, .merge] ++ bs) s₂

/-! ### The parser follows the rules -/

/-- A parser reads a part by the rules. -/
def Part.ReadBy (part : Part) (p : Parser) : Prop :=
  ∀ s, Reads part s (p s).actions (p s).rest

/-- The roles in which a token begins an operand. -/
theorem Rule.kind_of_starts {kind : Kind} {role : Role} (h : (Rule.of kind).starts = some role) :
    kind = .number ∧ role = .number ∨ kind = .operator .minus false ∧ role = .unary ∨
      kind = .delimiter .leftParen ∧ role = .grouping := by
  revert h
  unfold Rule.of
  split <;> simp <;> intro h <;> simp [h.symm]

/-- If operands are read by the rules, so is what begins one. -/
theorem reads_head {levels : Nat}
    (ih : ∀ least, .assignment ≤ least →
      (Part.operand levels least).ReadBy (.operand levels least))
    {s : TokenStream} {role : Role} (h : (Rule.of s.current.kind).starts = some role) :
    Reads (.head levels) s
      ((advance s).actions ++ (Parser.apply (.operand levels) role s.current s.next).actions)
      (Parser.apply (.operand levels) role s.current s.next).rest := by
  rcases Rule.kind_of_starts h with ⟨hk, rfl⟩ | ⟨hk, rfl⟩ | ⟨hk, rfl⟩
  · exact .number hk
  · have hr := Reads.negate hk (ih .unary (by decide) s.next)
    simpa [Parser.apply, hk, unaryOpcode?] using hr
  · have hr := ih .assignment (by decide) s.next
    -- What follows the body decides whether the group is closed.
    by_cases hc : (Parser.operand levels .assignment s.next).rest.current.kind
        = .delimiter .rightParen
    · simpa [Parser.apply, Parser.expect_of_eq hc] using Reads.closed hk hr hc
    · simpa [Parser.apply, Parser.expect_of_ne hc] using Reads.unclosed hk hr hc

/-- If operands are read by the rules, so are the operators behind one. -/
theorem reads_tail {levels : Nat} {least : Precedence} (hl : .assignment ≤ least)
    (ih : ∀ least, .assignment ≤ least →
      (Part.operand levels least).ReadBy (.operand levels least)) :
    (Part.tail levels least).ReadBy (.climb (.apply (.operand levels)) least) := by
  intro s
  unfold Parser.climb
  fun_induction Parser.climbFrom (.apply (.operand levels)) least s with
  | case1 s t h => exact .done h
  | case2 s t h hj =>
    -- A token that binds at all joins two operands.
    have hb := Nat.le_trans hl ((Precedence.not_lt _ _).1 h)
    rw [Rule.joins_of_binding hb] at hj
    cases hj
  | case3 s t h role hj p hp ih' =>
    -- The token is an operator, and its right operand has to bind more tightly.
    have hb := (Precedence.not_lt _ _).1 h
    obtain ⟨op, hk⟩ := BinaryOp.exists_of_binding (Nat.le_trans hl hb)
    rw [hk, BinaryOp.joins_of_kind, Option.some.injEq] at hj
    subst hj
    have hr := ih op.binding.next (op.assignment_le_next) s.next
    have hrest : p.rest = (Parser.operand levels op.binding.next s.next).rest := by
      show (Parser.apply _ .binary s.current s.next).rest = _
      rw [Parser.apply, show s.current.kind = op.kind from hk, BinaryOp.binding_of_kind]
      rfl
    have hactions : p.actions = .extend t :: (advance s).actions ++ .apply .binary t ::
        (Parser.operand levels op.binding.next s.next).actions ++ [.emit op.opcode, .merge] := by
      show [.extend t] ++ (advance s).actions
        ++ (Parser.apply _ .binary s.current s.next).actions = _
      simp [Parser.apply, show s.current.kind = op.kind from hk, t]
    have hle : least ≤ op.binding := by rwa [hk, BinaryOp.binding_of_kind] at hb
    rw [← hrest] at hr
    show Reads _ s (p.actions ++ _) _
    rw [hactions]
    exact .more hk hle hr ih'

/-- The parser reads an operand by the rules. -/
theorem reads_operand (levels : Nat) {least : Precedence} (hl : .assignment ≤ least) :
    (Part.operand levels least).ReadBy (.operand levels least) := by
  induction levels generalizing least with
  | zero => exact fun s => .refused
  | succ levels ih =>
    intro s
    -- All that is inside has one level less.
    have ih' := fun least hl => @ih least hl
    cases hs : (Rule.of s.current.kind).starts with
    | none => simpa [Parser.operand, hs] using Reads.missing hs
    | some role =>
      have hr := Reads.begun (reads_head ih' hs) (reads_tail hl ih' _)
      simpa [Parser.operand, hs] using hr

/-- Reading a whole stream: errors at the front are passed over, an expression is read, and the end
    of the text is expected after it. -/
theorem exists_reads_parse (s : TokenStream) :
    ∃ as s', Reads (.operand levelMax .assignment) s.settle as s' ∧
      parse s = (Parser.settle s).actions ++ as
        ++ (Parser.expect .eof .expectEnd s').actions ++ [.emit .ret] :=
  ⟨_, _, reads_operand levelMax (by decide) s.settle, rfl⟩

/-! ### Which rule was followed -/

namespace Reads

variable {levels : Nat} {least : Precedence} {s s' : TokenStream} {as : List Action}

/-- What begins an operand is a number, a sign or an opening parenthesis. -/
theorem starts_of_head (h : Reads (.head levels) s as s') :
    (Rule.of s.current.kind).starts ≠ none := by
  cases h with
  | number hk => rw [hk]; decide
  | negate hk _ => rw [hk]; decide
  | closed hk _ _ => rw [hk]; decide
  | unclosed hk _ _ => rw [hk]; decide

/-- At a number, the rule for numbers was followed. -/
theorem head_of_number (h : Reads (.head levels) s as s') (hk : s.current.kind = .number) :
    as = (advance s).actions ++ [.apply .number s.current, .literal s.current] ∧ s' = s.next := by
  cases h with
  | number _ => exact ⟨rfl, rfl⟩
  | negate hk' _ => exact absurd (hk.symm.trans hk') (by decide)
  | closed hk' _ _ => exact absurd (hk.symm.trans hk') (by decide)
  | unclosed hk' _ _ => exact absurd (hk.symm.trans hk') (by decide)

/-- At a sign, the rule for signs was followed. -/
theorem head_of_minus (h : Reads (.head levels) s as s')
    (hk : s.current.kind = .operator .minus false) :
    ∃ bs, Reads (.operand levels .unary) s.next bs s' ∧
      as = (advance s).actions ++ .apply .unary s.current :: bs ++ [.emit .negate] := by
  cases h with
  | number hk' => exact absurd (hk.symm.trans hk') (by decide)
  | negate _ h₁ => exact ⟨_, h₁, rfl⟩
  | closed hk' _ _ => exact absurd (hk.symm.trans hk') (by decide)
  | unclosed hk' _ _ => exact absurd (hk.symm.trans hk') (by decide)

/-- Behind an opening parenthesis, what follows the body decides whether it is closed. -/
theorem head_of_leftParen (h : Reads (.head levels) s as s')
    (hk : s.current.kind = .delimiter .leftParen) :
    ∃ bs s₁, Reads (.operand levels .assignment) s.next bs s₁ ∧
      as = (advance s).actions ++ .apply .grouping s.current :: bs
        ++ (Parser.expect (.delimiter .rightParen) .expectClosing s₁).actions ∧
      s' = (Parser.expect (.delimiter .rightParen) .expectClosing s₁).rest := by
  cases h with
  | number hk' => exact absurd (hk.symm.trans hk') (by decide)
  | negate hk' _ => exact absurd (hk.symm.trans hk') (by decide)
  | closed _ h₁ hc =>
    refine ⟨_, _, h₁, ?_⟩
    rw [Parser.expect_of_eq hc]
    exact ⟨rfl, rfl⟩
  | unclosed _ h₁ hc =>
    refine ⟨_, _, h₁, ?_⟩
    rw [Parser.expect_of_ne hc]
    exact ⟨rfl, rfl⟩

/-- Where no operator binds tightly enough, nothing was read. -/
theorem tail_of_lt (h : Reads (.tail levels least) s as s')
    (hb : (Rule.of s.current.kind).binding < least) : as = [] ∧ s' = s := by
  cases h with
  | done _ => exact ⟨rfl, rfl⟩
  | more hk hle _ _ =>
    rw [hk, BinaryOp.binding_of_kind] at hb
    exact absurd hle (Nat.not_le.2 hb)

/-- Where one does, its right operand and then the other operators were read. -/
theorem tail_of_kind {op : BinaryOp} (h : Reads (.tail levels least) s as s')
    (hk : s.current.kind = op.kind) (hle : least ≤ op.binding) :
    ∃ bs cs s₁, Reads (.operand levels op.binding.next) s.next bs s₁ ∧
      Reads (.tail levels least) s₁ cs s' ∧
      as = .extend s.current :: (advance s).actions
        ++ .apply .binary s.current :: bs ++ [.emit op.opcode, .merge] ++ cs := by
  cases h with
  | done hb =>
    rw [hk, BinaryOp.binding_of_kind] at hb
    exact absurd hle (Nat.not_le.2 hb)
  | more hk' _ h₁ h₂ =>
    obtain rfl := BinaryOp.kind_injective (hk.symm.trans hk')
    exact ⟨_, _, _, h₁, h₂, rfl⟩

/-- A part is read from a stream in one way only. -/
theorem unique {part : Part} {s'' : TokenStream} {bs : List Action} (h : Reads part s as s')
    (h' : Reads part s bs s'') : as = bs ∧ s' = s'' := by
  induction h generalizing bs s'' with
  | refused =>
    cases h' with
    | refused => exact ⟨rfl, rfl⟩
  | missing hn =>
    cases h' with
    | missing _ => exact ⟨rfl, rfl⟩
    | begun h₁ _ => exact absurd hn h₁.starts_of_head
  | begun h₁ _ ih₁ ih₂ =>
    cases h' with
    | missing hn => exact absurd hn h₁.starts_of_head
    | begun h₁' h₂' =>
      obtain ⟨rfl, rfl⟩ := ih₁ h₁'
      obtain ⟨rfl, rfl⟩ := ih₂ h₂'
      exact ⟨rfl, rfl⟩
  | number hk =>
    obtain ⟨rfl, rfl⟩ := h'.head_of_number hk
    exact ⟨rfl, rfl⟩
  | negate hk _ ih =>
    obtain ⟨cs, h₁', rfl⟩ := h'.head_of_minus hk
    obtain ⟨rfl, rfl⟩ := ih h₁'
    exact ⟨rfl, rfl⟩
  | closed hk _ hc ih =>
    obtain ⟨cs, s₁, h₁', rfl, rfl⟩ := h'.head_of_leftParen hk
    obtain ⟨rfl, rfl⟩ := ih h₁'
    rw [Parser.expect_of_eq hc]
    exact ⟨rfl, rfl⟩
  | unclosed hk _ hc ih =>
    obtain ⟨cs, s₁, h₁', rfl, rfl⟩ := h'.head_of_leftParen hk
    obtain ⟨rfl, rfl⟩ := ih h₁'
    rw [Parser.expect_of_ne hc]
    exact ⟨rfl, rfl⟩
  | done hb =>
    obtain ⟨rfl, rfl⟩ := h'.tail_of_lt hb
    exact ⟨rfl, rfl⟩
  | more hk hle _ _ ih₁ ih₂ =>
    obtain ⟨cs, ds, s₁, h₁', h₂', rfl⟩ := h'.tail_of_kind hk hle
    obtain ⟨rfl, rfl⟩ := ih₁ h₁'
    obtain ⟨rfl, rfl⟩ := ih₂ h₂'
    exact ⟨rfl, rfl⟩

end Reads

/-! ### What every part keeps -/

namespace Reads

variable {part : Part} {s s' : TokenStream} {as : List Action}

/-- What is left behind a part is settled. -/
theorem settled (h : Reads part s as s') (hs : s.Settled) : s'.Settled := by
  induction h with
  | refused => exact hs
  | missing _ => exact TokenStream.settled_next _
  | begun _ _ ih₁ ih₂ => exact ih₂ (ih₁ hs)
  | number _ => exact TokenStream.settled_next _
  | negate _ _ ih => exact ih (TokenStream.settled_next _)
  | closed _ _ _ _ => exact TokenStream.settled_next _
  | unclosed _ _ _ ih => exact ih (TokenStream.settled_next _)
  | done _ => exact hs
  | more _ _ _ _ ih₁ ih₂ => exact ih₂ (ih₁ (TokenStream.settled_next _))

/-- Every error of the stream is scanned or left. -/
theorem flaws_eq (h : Reads part s as s') (hs : s.Settled) :
    scannedFlaws as ++ s'.flaws = s.flaws := by
  induction h with
  | refused => rfl
  | missing _ => simpa [Action.flaws] using scannedFlaws_advance hs
  | begun h₁ _ ih₁ ih₂ =>
    rw [← ih₁ hs, ← ih₂ (h₁.settled hs)]
    simp [Action.flaws]
  | number _ => simpa [Action.flaws] using scannedFlaws_advance hs
  | negate _ _ ih =>
    rw [← scannedFlaws_advance hs, ← ih (TokenStream.settled_next _)]
    simp [Action.flaws]
  | closed _ h₁ _ ih =>
    -- Taking the closing parenthesis scans on for the token after it.
    have hs₁ := h₁.settled (TokenStream.settled_next _)
    rw [← scannedFlaws_advance hs, ← ih (TokenStream.settled_next _), ← scannedFlaws_advance hs₁]
    simp [Action.flaws]
  | unclosed _ _ _ ih =>
    rw [← scannedFlaws_advance hs, ← ih (TokenStream.settled_next _)]
    simp [Action.flaws]
  | done _ => rfl
  | more _ _ h₁ _ ih₁ ih₂ =>
    have hs₁ := h₁.settled (TokenStream.settled_next _)
    rw [← scannedFlaws_advance hs, ← ih₁ (TokenStream.settled_next _), ← ih₂ hs₁]
    simp [Action.flaws]

/-- Only tokens from the front are taken. -/
theorem suffix (h : Reads part s as s') (hs : s.Settled) : s'.tokens <:+ s.tokens := by
  induction h with
  | refused => exact List.suffix_refl _
  | missing _ => exact hs.suffix_next
  | begun h₁ _ ih₁ ih₂ => exact (ih₂ (h₁.settled hs)).trans (ih₁ hs)
  | number _ => exact hs.suffix_next
  | negate _ _ ih => exact (ih (TokenStream.settled_next _)).trans hs.suffix_next
  | closed _ h₁ _ ih =>
    have hs₁ := h₁.settled (TokenStream.settled_next _)
    exact hs₁.suffix_next.trans ((ih (TokenStream.settled_next _)).trans hs.suffix_next)
  | unclosed _ _ _ ih => exact (ih (TokenStream.settled_next _)).trans hs.suffix_next
  | done _ => exact List.suffix_refl _
  | more _ _ h₁ _ ih₁ ih₂ =>
    have hs₁ := h₁.settled (TokenStream.settled_next _)
    exact (ih₂ hs₁).trans ((ih₁ (TokenStream.settled_next _)).trans hs.suffix_next)

/-- What happens is inside an expression over the tokens of the stream. -/
theorem innerTo (h : Reads part s as s') (hs : s.Settled) : ∀ a ∈ as, a.InnerTo s.tokens := by
  induction h with
  | refused => exact List.forall_mem_singleton.2 trivial
  | @missing _ _ s _ =>
    have ha := innerTo_advance s s.tokens
    simpa [or_imp, forall_and, Action.InnerTo] using ha
  | begun h₁ _ ih₁ ih₂ =>
    have hb := innerTo_of_suffix (ih₂ (h₁.settled hs)) (h₁.suffix hs)
    simpa [or_imp, forall_and, Action.InnerTo] using ⟨ih₁ hs, hb⟩
  | @number _ s hk =>
    have ha := innerTo_advance s s.tokens
    have hmem : s.current ∈ s.tokens := by
      rw [hs.tokens_of_ne (by rw [hk]; decide)]
      exact List.mem_cons_self ..
    simpa [or_imp, forall_and, Action.InnerTo, hk, hmem] using ha
  | @negate _ s _ _ _ _ ih =>
    have ha := innerTo_advance s s.tokens
    have hb := innerTo_of_suffix (ih s.settled_next) hs.suffix_next
    simpa [or_imp, forall_and, Action.InnerTo] using ⟨ha, hb⟩
  | @closed _ s s₁ _ _ _ _ ih =>
    have ha := innerTo_advance s s.tokens
    have hb := innerTo_of_suffix (ih s.settled_next) hs.suffix_next
    have hc := innerTo_advance s₁ s.tokens
    simpa [or_imp, forall_and, Action.InnerTo] using ⟨ha, hb, hc⟩
  | @unclosed _ s _ _ _ _ _ ih =>
    have ha := innerTo_advance s s.tokens
    have hb := innerTo_of_suffix (ih s.settled_next) hs.suffix_next
    simpa [or_imp, forall_and, Action.InnerTo] using ⟨ha, hb⟩
  | done _ => exact List.forall_mem_nil _
  | @more _ _ op s s₁ _ _ _ _ _ h₁ _ ih₁ ih₂ =>
    have hs₁ := h₁.settled s.settled_next
    have hsuf := (h₁.suffix s.settled_next).trans hs.suffix_next
    have ha := innerTo_advance s s.tokens
    have hb := innerTo_of_suffix (ih₁ s.settled_next) hs.suffix_next
    have hc := innerTo_of_suffix (ih₂ hs₁) hsuf
    simpa [or_imp, forall_and, Action.InnerTo, op.opcode_ne_constant, op.opcode_ne_ret] using
      ⟨ha, hb, hc⟩

end Reads

/-- Reading a whole stream ends with the only return. -/
theorem exists_parse_eq (s : TokenStream) :
    ∃ as, parse s = as ++ [.emit .ret] ∧ ∀ a ∈ as, a.InnerTo s.tokens := by
  obtain ⟨as, s', h, hparse⟩ := exists_reads_parse s
  refine ⟨_, hparse, ?_⟩
  have hinner := h.innerTo s.settled_settle
  rw [s.tokens_settle] at hinner
  rw [List.forall_mem_append, List.forall_mem_append]
  exact ⟨⟨innerTo_settle s _, hinner⟩, innerTo_expect _ _ s' _⟩

end Abacus
