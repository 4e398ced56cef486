import Abacus.Compilation
import Abacus.Proofs.Climbing
import Abacus.Proofs.Emission
import Abacus.Proofs.Numeral

namespace Abacus

open Abacus.Parser (advance)

/-!
# What compiles, and to what

A source text compiles exactly if its tokens are a sentence of the grammar within the limits, and
then to the postfix code of its tree.

* `Assembly.Adds a a' x` — `a'` is `a` with the code of the tree `x` added.
* `Sentence.adds_outline` — the outline of a sentence adds its tree.
* `Assembly.Quiet a as` — nothing is found wrong when the actions `as` are taken.
* `Sentence.quiet_outline_iff` — this depends on the number of literals only; the stack never
  runs full first.
* `compile_acceptance` — both for source texts.
-/

/-! ### Trees and their literals -/

/-- The numbers among some tokens. -/
def numbersOf (ts : List Token) : List Token := ts.filter (·.kind = .number)

@[simp] theorem numbersOf_append (ts us : List Token) :
    numbersOf (ts ++ us) = numbersOf ts ++ numbersOf us :=
  List.filter_append ..

/-- A token that is no number does not count. -/
theorem numbersOf_cons_of_ne {t : Token} (ts : List Token) {kind : Kind} (hk : t.kind = kind)
    (hne : kind ≠ .number) : numbersOf (t :: ts) = numbersOf ts :=
  List.filter_cons_of_neg (by simpa [hk] using hne)

/-- A sentence whose numbers can be read has an arithmetic tree, and its literals are the numbers
    in order. -/
theorem Derives.exists_expr? {c : Nonterminal} {ts : List Token} {e : Sentence}
    (d : Derives c ts e) (hr : Readable ts) :
    ∃ x, e.expr? = some x ∧
      x.literals.map some = (numbersOf ts).map fun t => Literal.read? t.lexeme := by
  induction d with
  | @number t hk =>
    obtain ⟨x, hx⟩ := hr t (List.mem_singleton_self t) hk
    refine ⟨.number x, by rw [Sentence.expr?, hx]; rfl, ?_⟩
    rw [numbersOf, List.filter_cons_of_pos (by simpa using hk), List.filter_nil, List.map_singleton,
      hx]
    rfl
  | @group o c ts e ho _ hc ih =>
    have hsub : ts ⊆ o :: ts ++ [c] := fun t ht => by simp [ht]
    obtain ⟨x, hx, hl⟩ := ih (hr.subset hsub)
    refine ⟨x, hx, ?_⟩
    rw [numbersOf_append, numbersOf_cons_of_ne _ ho (by decide),
      numbersOf_cons_of_ne _ hc (by decide), hl]
    exact congrArg _ (List.append_nil _).symm
  | primary _ ih => exact ih hr
  | @negate t ts e ht _ ih =>
    obtain ⟨x, hx, hl⟩ := ih (hr.subset (List.subset_cons_self ..))
    refine ⟨.negate x, by rw [Sentence.expr?, hx]; rfl, ?_⟩
    rw [numbersOf_cons_of_ne _ ht (by decide)]
    exact hl
  | unary _ ih => exact ih hr
  | term _ ih => exact ih hr
  | @binary op m ls rs l r _ hm _ ihl ihr =>
    have hne : op.kind ≠ .number := by cases op <;> decide
    obtain ⟨x, hx, hxl⟩ := ihl (hr.subset (List.subset_append_left ..))
    obtain ⟨y, hy, hyl⟩ := ihr (hr.subset fun t ht => by simp [ht])
    refine ⟨.binary op x y, by rw [Sentence.expr?, hx, hy]; rfl, ?_⟩
    rw [numbersOf_append, numbersOf_cons_of_ne _ hm hne, List.map_append, ← hxl, ← hyl,
      ← List.map_append]
    rfl

/-- A tree has as many literals as there are numbers among its tokens. -/
theorem length_numbersOf {x : Expr Float} {ts : List Token}
    (h : x.literals.map some = (numbersOf ts).map fun t => Literal.read? t.lexeme) :
    (numbersOf ts).length = x.literals.length := by
  have hlen := congrArg List.length h
  rw [List.length_map, List.length_map] at hlen
  exact hlen.symm

/-! ### Writing a tree -/

namespace Assembly

/-- A chunk in the making is another one with the code and the literals of a tree added, which
    leaves one more operand on the stack. -/
structure Adds (a a' : Assembly) (x : Expr Float) : Prop where
  code : a'.chunk.code.toList
    = a.chunk.code.toList ++ (x.indexed a.chunk.constants.size).code
  constants : a'.chunk.constants.toList = a.chunk.constants.toList ++ x.literals
  pending : a'.pending = a.pending + 1

namespace Adds

variable {a a' a'' : Assembly} {x l r : Expr Float}

theorem size_eq (h : Adds a a' x) :
    a'.chunk.constants.size = a.chunk.constants.size + x.literals.length := by
  rw [← Array.length_toList, h.constants, List.length_append, Array.length_toList]

theorem number (a : Assembly) (value : Float) (position : Position) :
    Adds a (a.constant value position) (.number value) where
  code := by
    rw [constant_chunk, Chunk.code_write, Chunk.code_emit, Chunk.code_addConstant,
      List.append_assoc]
    rfl
  constants := by
    rw [constant_chunk, Chunk.constants_write, Chunk.constants_emit, Chunk.constants_addConstant]
    rfl
  pending := constant_pending a value position

/-- A negation behind the code of a tree adds the negated tree. -/
theorem negate (h : Adds a a' x) : Adds a (a'.perform (.emit .negate)) (.negate x) where
  code := by
    show ((a'.chunk.emit .negate).code).toList = _
    rw [Chunk.code_emit, h.code, List.append_assoc]
    rfl
  constants := h.constants
  pending := h.pending

/-- An operator behind the code of two trees adds their join. -/
theorem binary (op : BinaryOp) (hl : Adds a a' l) (hr : Adds a' a'' r) :
    Adds a ((a''.perform (.emit op.opcode)).perform .merge) (.binary op l r) where
  code := by
    show ((a''.chunk.emit op.opcode).code).toList = _
    rw [Chunk.code_emit, hr.code, hl.code, hl.size_eq, Expr.indexed, Expr.code, List.append_assoc,
      List.append_assoc, List.append_assoc]
  constants := by
    show a''.chunk.constants.toList = _
    rw [hr.constants, hl.constants, List.append_assoc]
    rfl
  pending := by
    show a''.pending - 1 = _
    rw [hr.pending, hl.pending]
    omega

end Adds

end Assembly

/-- Taking the actions of an outline adds the tree. -/
theorem Sentence.adds_outline {e : Sentence} {x : Expr Float} (hx : e.expr? = some x)
    (a : Assembly) : a.Adds (a.performAll e.outline) x := by
  induction e generalizing x a with
  | number t =>
    obtain ⟨value, hv, rfl⟩ := Option.map_eq_some_iff.1 hx
    have hperform : a.performAll (Sentence.number t).outline = a.constant value t.position := by
      show a.perform (.literal t) = _
      simp only [Assembly.perform, hv]
    rw [hperform]
    exact .number a value t.position
  | group o body c ih =>
    have hperform : a.performAll (Sentence.group o body c).outline = a.performAll body.outline := by
      rw [outline, Assembly.performAll_append]
      rfl
    rw [hperform]
    exact ih hx a
  | negate s operand ih =>
    obtain ⟨y, hy, rfl⟩ := Option.map_eq_some_iff.1 hx
    have hperform : a.performAll (Sentence.negate s operand).outline
        = (a.performAll operand.outline).perform (.emit .negate) := by
      rw [outline, Assembly.performAll_append]
      rfl
    rw [hperform]
    exact (ih hy a).negate
  | binary op left m right ihl ihr =>
    obtain ⟨l, hl, hx⟩ := Option.bind_eq_some_iff.1 hx
    obtain ⟨r, hr, hx⟩ := Option.bind_eq_some_iff.1 hx
    obtain rfl := Option.some.inj hx
    have hperform : a.performAll (Sentence.binary op left m right).outline
        = ((((a.performAll left.outline).performAll right.outline).perform
          (.emit op.opcode)).perform .merge) := by
      rw [outline, Assembly.performAll_append, Assembly.performAll_append]
      rfl
    rw [hperform]
    exact (ihl hl a).binary op (ihr hr _)

/-! ### When nothing is found wrong -/

namespace Assembly

/-- Nothing is found wrong when some actions are taken. -/
def Quiet (a : Assembly) (as : List Action) : Prop :=
  (a.performAll as).diagnostics.toList = a.diagnostics.toList

@[simp] theorem quiet_nil (a : Assembly) : a.Quiet [] := rfl

@[simp] theorem quiet_cons (a : Assembly) (action : Action) (as : List Action) :
    a.Quiet (action :: as) ↔ a.remarks action = [] ∧ (a.perform action).Quiet as := by
  have hd := a.perform_diagnostics action
  unfold Quiet
  rw [performAll_cons]
  constructor
  · intro h
    have hpre := (a.perform action).diagnostics_mono as
    -- What was said about the first action would still be there.
    have hlen := hpre.length_le
    rw [h, hd, List.length_append] at hlen
    have hnil : a.remarks action = [] := List.length_eq_zero_iff.1 (by omega)
    rw [h, hd, hnil, List.append_nil]
    exact ⟨rfl, rfl⟩
  · intro ⟨hnil, h⟩
    rw [h, hd, hnil, List.append_nil]

@[simp] theorem quiet_append (a : Assembly) (as bs : List Action) :
    a.Quiet (as ++ bs) ↔ a.Quiet as ∧ (a.performAll as).Quiet bs := by
  induction as generalizing a with
  | nil => simp
  | cons action as ih => rw [List.cons_append, quiet_cons, quiet_cons, ih, and_assoc]; rfl

/-- Where nothing is found wrong, there is neither a complaint nor an error. -/
theorem Quiet.firstReport_eq {a : Assembly} {as : List Action} (h : a.Quiet as) :
    firstReport as = none ∧ scannedFlaws as = [] := by
  induction as generalizing a with
  | nil => exact ⟨rfl, rfl⟩
  | cons action as ih =>
    rw [quiet_cons] at h
    obtain ⟨hreport, hflaws⟩ := ih h.2
    rw [firstReport_cons, scannedFlaws_cons, hreport, hflaws]
    have hnil := h.1
    cases action with
    | scan t =>
      by_cases ht : t.isError
      · simp [remarks, ht] at hnil
      · simp [Action.report?, Action.flaws, ht]
    | report complaint t => cases hnil
    | _ => exact ⟨rfl, rfl⟩

/-- Without errors, the actions that tell what was read and written do all there is to do. -/
theorem performAll_kept (a : Assembly) {as : List Action} (h : scannedFlaws as = []) :
    a.performAll (kept as) = a.performAll as := by
  induction as generalizing a with
  | nil => rfl
  | cons action as ih =>
    rw [scannedFlaws_cons, List.append_eq_nil_iff] at h
    have ih' := fun a => ih a h.2
    rw [performAll_cons, ← ih', kept_cons]
    have hflaws := h.1
    cases action with
    | scan t =>
      have ht : t.isError = false := by simpa [Action.flaws] using hflaws
      simp [Action.isKept, perform, ht]
    | _ => rfl

end Assembly

/-- A sentence is written without a complaint exactly if its literals find room among the
    constants. Every operand that waits on the stack is one of them, so there is room for it. -/
theorem Sentence.quiet_outline_iff {e : Sentence} {x : Expr Float} (hx : e.expr? = some x)
    {a : Assembly} (ha : a.pending ≤ a.chunk.constants.size) :
    a.Quiet e.outline ↔ a.chunk.constants.size + x.literals.length ≤ constantMax := by
  induction e generalizing x a with
  | number t =>
    obtain ⟨value, hv, rfl⟩ := Option.map_eq_some_iff.1 hx
    have hmax : constantMax = stackMax := rfl
    have hremarks : a.remarks (.literal t) = [] ↔ a.chunk.constants.size + 1 ≤ constantMax := by
      simp only [Assembly.remarks, hv]
      by_cases hc : a.chunk.constants.size < constantMax
      · have hroom : ¬ a.pending + 1 = stackMax + 1 := by omega
        rw [if_pos hc, if_neg hroom]
        exact iff_of_true rfl hc
      · rw [if_neg hc]
        exact iff_of_false (by simp) hc
    show a.Quiet [.consume t, .literal t] ↔ a.chunk.constants.size + 1 ≤ constantMax
    rw [← hremarks]
    simp [Assembly.remarks, Assembly.perform]
  | group o body c ih =>
    have h := ih hx ha
    simpa [outline, Assembly.remarks, Assembly.perform] using h
  | negate s operand ih =>
    obtain ⟨y, hy, rfl⟩ := Option.map_eq_some_iff.1 hx
    have h := ih hy ha
    simpa [outline, Assembly.remarks, Assembly.perform, Expr.literals] using h
  | binary op left m right ihl ihr =>
    obtain ⟨l, hl, hx⟩ := Option.bind_eq_some_iff.1 hx
    obtain ⟨r, hr, hx⟩ := Option.bind_eq_some_iff.1 hx
    obtain rfl := Option.some.inj hx
    -- While the right operand is written, the left one waits, and it brought a literal.
    have hadds := Sentence.adds_outline hl a
    have hpos := l.literals_length_pos
    have ha' : (a.performAll left.outline).pending
        ≤ (a.performAll left.outline).chunk.constants.size := by
      rw [hadds.pending, hadds.size_eq]
      omega
    have h := and_congr (ihl hl ha) (ihr hr ha')
    rw [hadds.size_eq] at h
    have hsum : a.chunk.constants.size + l.literals.length ≤ constantMax ∧
        a.chunk.constants.size + l.literals.length + r.literals.length ≤ constantMax ↔
          a.chunk.constants.size + (Expr.binary op l r).literals.length ≤ constantMax := by
      rw [Expr.literals, List.length_append]
      omega
    rw [← hsum, ← h]
    simp [outline, Assembly.remarks, Assembly.perform]

/-! ### Whole texts -/

/-- A stream that is read without a complaint and without errors is a sentence. -/
theorem exists_derives_of_parse {s : TokenStream} (hb : ∀ t ∈ s.body, t.kind ≠ .eof)
    (hq : firstReport (parse s) = none) (hf : scannedFlaws (parse s) = []) :
    s.flaws = [] ∧ ∃ e, Derives .expr s.body e ∧ e.level ≤ levelMax := by
  obtain ⟨as, s', h, hparse⟩ := exists_reads_parse s
  have hs' := h.settled s.settled_settle
  simp only [hparse, firstReport_append, scannedFlaws_append, Option.or_eq_none_iff,
    List.append_eq_nil_iff] at hq hf
  obtain ⟨-, ts, e, d, hts, hlevel⟩ := h.derives s.settled_settle hq.1.1.2
  have heof : s'.current.kind = .eof := by
    by_cases hk : s'.current.kind = .eof
    · exact hk
    · rw [Parser.expect_of_ne hk] at hq
      cases hq.1.2
  -- The end of the text is the only token of its kind, so all others were read.
  have hnil : s'.tokens = [] := by
    rcases hs'.tokens_eq with ⟨hnil, -⟩ | hcons
    · exact hnil
    · have hmem : s'.current ∈ s.tokens := by
        rw [← s.tokens_settle]
        refine (h.suffix s.settled_settle).subset ?_
        rw [hcons]
        exact List.mem_cons_self ..
      exact absurd heof (hb _ (List.mem_filter.1 hmem).1)
  have hflaws : s.flaws = [] := by
    have hend : s'.flaws = [] := by
      rw [TokenStream.flaws, hs'.body_eq_nil hnil]
      rfl
    rw [← scannedFlaws_settle s, ← h.flaws_eq s.settled_settle, hf.1.1.1, hf.1.1.2, hend]
    rfl
  refine ⟨hflaws, e, ?_, hlevel⟩
  rw [s.tokens_settle, TokenStream.tokens_eq_body hflaws, hnil, List.append_nil] at hts
  rw [hts]
  exact d

/-- Reading a sentence that is not too deep adds its outline and a return. -/
theorem performAll_parse {s : TokenStream} {e : Sentence} (hflaws : s.flaws = [])
    (d : Derives .expr s.body e) (hlevel : e.level ≤ levelMax) (a : Assembly) :
    a.performAll (parse s) = (a.performAll e.outline).perform (.emit .ret) := by
  obtain ⟨as, s', h, hparse⟩ := exists_reads_parse s
  have ht : s.settle.tokens = s.body ++ [] := by
    rw [s.tokens_settle, TokenStream.tokens_eq_body hflaws, List.append_nil]
  obtain ⟨hs', hnil, hkept⟩ := d.readAsPhrase.operand d h s.settled_settle ht hlevel
    (by decide) (by decide) (by decide)
  have heof : s'.current.kind = .eof := by
    rw [TokenStream.current_of_body_eq_nil (hs'.body_eq_nil hnil)]
    rfl
  have hactions : parse s = (Parser.settle s).actions ++ as ++ (advance s').actions
      ++ [.emit .ret] := by
    rw [hparse, Parser.expect_of_eq heof]
  have hscanned : scannedFlaws (parse s) = [] := by
    have h₁ := scannedFlaws_settle s
    rw [← h.flaws_eq s.settled_settle, ← scannedFlaws_advance hs', hflaws] at h₁
    simp only [List.append_eq_nil_iff] at h₁
    rw [hactions]
    simp [h₁, Action.flaws]
  rw [← Assembly.performAll_kept a hscanned, hactions]
  simp [Action.isKept, hkept, Assembly.perform]

/-- A chunk is the postfix code of a tree: its constants are the literals in order, and after the
    code of the tree it returns. -/
structure Chunk.IsCodeOf (c : Chunk) (x : Expr Float) : Prop where
  constants : c.constants.toList = x.literals
  code : c.code.toList = (x.indexed 0).code ++ [Opcode.ret.byte]

/-- The pool of a tree's code has the literals of the tree. -/
theorem Chunk.IsCodeOf.size_constants {c : Chunk} {x : Expr Float} (h : c.IsCodeOf x) :
    c.constants.size = x.literals.length := by
  rw [← Array.length_toList, h.constants]

/-- A text compiles if nothing is found wrong, and then to what was written. -/
theorem compile_eq_ok_iff {source : String} {chunk : Chunk} :
    compile source = .ok chunk ↔
      Assembly.Quiet { chunk := .empty } (parse (scan source)) ∧
        (compileInto .empty source).chunk = chunk := by
  unfold compile Assembly.Quiet
  have hdiag : (compileInto .empty source).diagnostics
      = (Assembly.performAll { chunk := .empty } (parse (scan source))).diagnostics.toList := rfl
  rw [← hdiag]
  by_cases hnil : (compileInto .empty source).diagnostics = []
  · simp [hnil]
  · simp [hnil]

/-- At the end of any chunk, a sentence that is not too deep is compiled without a complaint exactly
    if its literals find room among the constants. -/
theorem quiet_parse_iff_room {s : TokenStream} {e : Sentence} {x : Expr Float}
    (hflaws : s.flaws = []) (d : Derives .expr s.body e) (hlevel : e.level ≤ levelMax)
    (hx : e.expr? = some x) (c : Chunk) :
    Assembly.Quiet { chunk := c } (parse s) ↔
      c.constants.size + x.literals.length ≤ constantMax := by
  have hquiet : Assembly.Quiet { chunk := c } (parse s) ↔
      Assembly.Quiet { chunk := c } e.outline := by
    unfold Assembly.Quiet
    rw [performAll_parse hflaws d hlevel]
    rfl
  exact hquiet.trans (Sentence.quiet_outline_iff hx (Nat.zero_le _))

/-- Whether or not there is room, the literals of a sentence become constants, and its postfix code
    is written and a return after it. -/
theorem performAll_parse_chunk {s : TokenStream} {e : Sentence} {x : Expr Float}
    (hflaws : s.flaws = []) (d : Derives .expr s.body e) (hlevel : e.level ≤ levelMax)
    (hx : e.expr? = some x) (c : Chunk) :
    (Assembly.performAll { chunk := c } (parse s)).chunk.constants.toList
        = c.constants.toList ++ x.literals ∧
      (Assembly.performAll { chunk := c } (parse s)).chunk.code.toList
        = c.code.toList ++ ((x.indexed c.constants.size).code ++ [Opcode.ret.byte]) := by
  have hadds := Sentence.adds_outline hx { chunk := c }
  rw [performAll_parse hflaws d hlevel]
  refine ⟨hadds.constants, ?_⟩
  show ((Assembly.performAll { chunk := c } e.outline).chunk.emit .ret).code.toList = _
  rw [Chunk.code_emit, hadds.code, List.append_assoc]

/-- A sentence that is not too deep compiles exactly if it has not too many literals, and in any
    case its postfix code is written. -/
theorem quiet_parse_iff {s : TokenStream} {e : Sentence} {x : Expr Float} (hflaws : s.flaws = [])
    (d : Derives .expr s.body e) (hlevel : e.level ≤ levelMax) (hx : e.expr? = some x) :
    (Assembly.Quiet { chunk := .empty } (parse s) ↔ x.literals.length ≤ constantMax) ∧
      (Assembly.performAll { chunk := .empty } (parse s)).chunk.IsCodeOf x := by
  have hroom := quiet_parse_iff_room hflaws d hlevel hx .empty
  have hsize : Chunk.empty.constants.size = 0 := rfl
  rw [hsize, Nat.zero_add] at hroom
  obtain ⟨hconstants, hcode⟩ := performAll_parse_chunk hflaws d hlevel hx .empty
  exact ⟨hroom, hconstants, hcode⟩

/-- A source text in which nothing is found wrong, at the end of whatever chunk, is a sentence that
    is not too deep and whose literals can be read. -/
theorem exists_derives_of_quiet {c : Chunk} {source : String}
    (h : Assembly.Quiet { chunk := c } (parse (scan source))) :
    (scan source).flaws = [] ∧ ∃ e x, Derives .expr (scan source).body e ∧ e.level ≤ levelMax ∧
      e.expr? = some x := by
  obtain ⟨hreport, hscanned⟩ := h.firstReport_eq
  obtain ⟨hflaws, e, d, hlevel⟩ :=
    exists_derives_of_parse (fun t ht => kind_ne_eof_of_mem_scan ht) hreport hscanned
  obtain ⟨x, hx, -⟩ := d.exists_expr? (readable_scan source)
  exact ⟨hflaws, e, x, d, hlevel, hx⟩

/-- What compiles is a sentence within the limits, and its code is that of the sentence's tree. -/
theorem exists_isCodeOf_of_compile {source : String} {chunk : Chunk}
    (h : compile source = .ok chunk) :
    (scan source).flaws = [] ∧ ∃ e x, Derives .expr (scan source).body e ∧ e.level ≤ levelMax ∧
      e.expr? = some x ∧ x.literals.length ≤ constantMax ∧ chunk.IsCodeOf x := by
  obtain ⟨hquiet, rfl⟩ := compile_eq_ok_iff.1 h
  obtain ⟨hflaws, e, x, d, hlevel, hx⟩ := exists_derives_of_quiet hquiet
  obtain ⟨hroom, hcode⟩ := quiet_parse_iff hflaws d hlevel hx
  exact ⟨hflaws, e, x, d, hlevel, hx, hroom.1 hquiet, hcode⟩

/-- **Exact acceptance and exact output.** A source text compiles exactly if it has no errors, its
    tokens are a sentence of the grammar, and there are not too many numbers and levels. Then its
    numbers become the constants, in order, and its tree becomes postfix code. -/
theorem compile_acceptance (source : String) :
    ((∃ chunk, compile source = .ok chunk) ↔
      (∀ t ∈ (scan source).body, t.isError = false) ∧
        ∃ e, Derives .expr (scan source).body e ∧
          (numbersOf (scan source).body).length ≤ constantMax ∧ e.level ≤ levelMax) ∧
    ∀ chunk e, compile source = .ok chunk → Derives .expr (scan source).body e →
      ∃ x, e.expr? = some x ∧
        x.literals.map some
          = (numbersOf (scan source).body).map (fun t => Literal.read? t.lexeme) ∧
        chunk.IsCodeOf x := by
  refine ⟨⟨?_, ?_⟩, ?_⟩
  · rintro ⟨chunk, h⟩
    obtain ⟨hflaws, e, x, d, hlevel, hx, hcount, -⟩ := exists_isCodeOf_of_compile h
    refine ⟨(TokenStream.flaws_eq_nil_iff _).1 hflaws, e, d, ?_, hlevel⟩
    -- The tree that was found is the one with the numbers as literals.
    obtain ⟨y, hy, hl⟩ := d.exists_expr? (readable_scan source)
    obtain rfl := Option.some.inj (hx.symm.trans hy)
    rw [length_numbersOf hl]
    exact hcount
  · rintro ⟨herror, e, d, hcount, hlevel⟩
    have hflaws := (TokenStream.flaws_eq_nil_iff _).2 herror
    obtain ⟨x, hx, hl⟩ := d.exists_expr? (readable_scan source)
    rw [length_numbersOf hl] at hcount
    exact ⟨_, compile_eq_ok_iff.2 ⟨(quiet_parse_iff hflaws d hlevel hx).1.2 hcount, rfl⟩⟩
  · intro chunk e h d
    obtain ⟨-, e', x, d', -, hx, -, hcode⟩ := exists_isCodeOf_of_compile h
    obtain rfl := d.unique d'
    obtain ⟨y, hy, hl⟩ := d.exists_expr? (readable_scan source)
    obtain rfl := Option.some.inj (hx.symm.trans hy)
    exact ⟨x, hx, hl, hcode⟩

end Abacus
