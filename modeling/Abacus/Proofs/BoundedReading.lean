import Abacus.Proofs.CallDepth
import Abacus.Proofs.TokenLog

namespace Abacus

open Abacus.Parser (advance)

/-!
# How far reading goes

Reading an expression comes to an end, on every text: each token of the text is scanned once at
most, and all that happens is paid for by what is scanned. Only the end of the text, which stands
there for ever, can be scanned again.

* `Owes`, `Reads.owes` — how many actions there are for the tokens that are scanned.
* `Reads.countsEnds` — how often the end of the text is scanned: once when it is come to, and once
  more if an expression is missing there.
* `countP_scansEnd_parse`, `countP_missesEnd_pos_iff` — so for a whole text its diagnostics tell how
  often.
* `BoundedBy`, `Compilation.ScansOnce` — what this and the nesting of operands mean for a whole
  text; `compileInto_bounded` says so of every text.
-/

/-! ### Actions are paid for by scanning -/

/-- Does an action scan a token? -/
def Action.isScan : Action → Bool
  | .scan _ => true
  | _ => false

theorem countP_isScan (as : List Action) :
    as.countP Action.isScan = (as.filterMap Action.scanned?).length := by
  rw [List.length_filterMap_eq_countP]
  congr 1
  funext x
  cases x <;> rfl

/-- Every scan pays for eight actions, and no more than a debt is left for some of them. -/
def Owes (debt : Int) (as : List Action) : Prop :=
  (as.length : Int) ≤ 8 * as.countP Action.isScan + debt

namespace Owes

variable {d e : Int} {as bs : List Action}

theorem mono (h : Owes d as) (hde : d ≤ e) : Owes e as := by
  unfold Owes at *
  omega

theorem append (h : Owes d as) (h' : Owes e bs) : Owes (d + e) (as ++ bs) := by
  unfold Owes at *
  rw [List.length_append, List.countP_append]
  omega

theorem each (as : List Action) : Owes as.length as := by
  unfold Owes
  omega

/-- Passing over errors does nothing but scan, which pays for seven actions more. -/
theorem settle (s : TokenStream) : Owes (-7) (Parser.settle s).actions := by
  have hscan : (Parser.settle s).actions.countP Action.isScan
      = (Parser.settle s).actions.length := by
    rw [List.countP_eq_length]
    intro x hx
    obtain ⟨t, -, rfl⟩ := List.mem_map.1 hx
    rfl
  have hpos : 0 < (Parser.settle s).actions.length := by simp [Parser.settle]
  unfold Owes
  omega

/-- A token that is taken makes another one be scanned, which pays for six actions more. -/
theorem advance (s : TokenStream) : Owes (-6) (advance s).actions :=
  (each [.consume s.current]).append (settle s.tail)

/-- Looking for a kind of token owes one action at most. -/
theorem expect (kind : Kind) (complaint : Complaint) (s : TokenStream) :
    Owes 1 (Parser.expect kind complaint s).actions := by
  by_cases hk : s.current.kind = kind
  · rw [Parser.expect_of_eq hk]
    exact (advance s).mono (by decide)
  · rw [Parser.expect_of_ne hk]
    exact each _

end Owes

/-- What happens while a part is read is paid for by what is scanned, up to where an operand begins
    and ends. -/
theorem Reads.owes {part : Part} {s s' : TokenStream} {as : List Action}
    (h : Reads part s as s') : Owes (2 * part.bodies) as := by
  induction h with
  | refused => exact (Owes.each _).mono (by simp [Part.bodies])
  | @missing _ _ s _ =>
    have hmissing := (Owes.advance s).append (.each [.report .expectExpression s.current, .leave])
    exact ((Owes.each [.enter]).append hmissing).mono (by simp [Part.bodies])
  | begun _ _ ih₁ ih₂ =>
    exact (((Owes.each [.enter]).append ih₁).append ih₂).append (.each [.leave])
  | @number _ s _ => exact ((Owes.advance s).append (.each _)).mono (by simp [Part.bodies])
  | @negate _ s _ _ _ _ ih =>
    have hoperand := (Owes.each [.apply .unary s.current]).append ih
    exact (((Owes.advance s).append hoperand).append (.each [.emit .negate])).mono
      (by simp [Part.bodies])
  | @closed _ s s₁ _ _ _ _ ih =>
    have hbody := (Owes.each [.apply .grouping s.current]).append ih
    exact (((Owes.advance s).append hbody).append (.advance s₁)).mono (by simp [Part.bodies])
  | @unclosed _ s s₁ _ _ _ _ ih =>
    have hbody := (Owes.each [.apply .grouping s.current]).append ih
    exact (((Owes.advance s).append hbody).append (.each _)).mono (by simp [Part.bodies])
  | done _ => exact .each []
  | @more _ _ op s _ _ _ _ _ _ _ _ ih₁ ih₂ =>
    have hright := (Owes.each [.apply .binary s.current]).append ih₁
    have hjoined := ((Owes.each [.extend s.current]).append (.advance s)).append hright
    exact ((hjoined.append (.each [.emit op.opcode, .merge])).append ih₂).mono
      (by simp [Part.bodies])

/-- Reading a whole stream owes nothing. -/
theorem owes_parse (s : TokenStream) : Owes 0 (parse s) := by
  obtain ⟨as, s', hreads, hparse⟩ := exists_reads_parse s
  rw [hparse]
  exact ((((Owes.settle s).append hreads.owes).append (.expect _ _ s')).append (.each _)).mono
    (by decide)

/-! ### The end of the text -/

/-- Does an action scan the end of the text? -/
def Action.scansEnd : Action → Bool
  | .scan t => t.kind = .eof
  | _ => false

/-- Does an action complain that there is the end of the text in place of an expression? -/
def Action.missesEnd : Action → Bool
  | .report .expectExpression t => t.kind = .eof
  | _ => false

/-- The end of the text is scanned as often as it is among the scanned tokens. -/
theorem countP_scansEnd (as : List Action) :
    as.countP Action.scansEnd = (as.filterMap Action.scanned?).countP (·.kind = .eof) := by
  rw [List.countP_filterMap]
  congr 1
  funext x
  cases x <;> rfl

namespace TokenStream

/-- How often the end of the text stands at the front of a stream: once, or not at all. -/
def atEnd (s : TokenStream) : Nat := if s.current.kind = .eof then 1 else 0

theorem atEnd_of_eq {s : TokenStream} (h : s.current.kind = .eof) : s.atEnd = 1 := if_pos h

theorem atEnd_le (s : TokenStream) : s.atEnd ≤ 1 := by
  unfold atEnd
  split <;> omega

theorem atEnd_of_ne {s : TokenStream} (h : s.current.kind ≠ .eof) : s.atEnd = 0 := if_neg h

/-- No token of the text stands for its end. -/
def Inner (s : TokenStream) : Prop := ∀ t ∈ s.tokens, t.kind ≠ .eof

theorem Inner.of_suffix {s s' : TokenStream} (h : s.Inner) (hsuffix : s'.tokens <:+ s.tokens) :
    s'.Inner :=
  fun t ht => h t (hsuffix.subset ht)

/-- Behind the end of the text there is nothing else. -/
theorem Settled.atEnd_le_next {s : TokenStream} (hs : s.Settled) (hinner : s.Inner) :
    s.atEnd ≤ s.next.atEnd := by
  rcases hs.tokens_eq with ⟨hnil, -⟩ | hcons
  · have hnext : s.next.current.kind = .eof := by
      rw [s.settled_next.current_eq, hs.tokens_next, hnil]
      rfl
    rw [atEnd_of_eq hnext, atEnd]
    split <;> omega
  · have hne : s.current.kind ≠ .eof := hinner _ (by rw [hcons]; exact List.mem_cons_self ..)
    rw [atEnd_of_ne hne]
    exact Nat.zero_le _

end TokenStream

/-- Passing over errors scans the end of the text exactly if it comes to it. -/
theorem countP_scansEnd_settle (s : TokenStream) :
    (Parser.settle s).actions.countP Action.scansEnd = s.settle.atEnd := by
  have herrors : ∀ t ∈ s.body.takeWhile Token.isError, ¬ (Action.scan t).scansEnd = true := by
    intro t ht
    have hkind : t.kind = .error := by simpa [Token.isError] using List.mem_takeWhile_imp ht
    simp [Action.scansEnd, hkind]
  show List.countP _ ((_ ++ [s.settle.current]).map Action.scan) = _
  rw [List.countP_map, List.countP_append, Function.comp_def, List.countP_eq_zero.2 herrors]
  simp [Action.scansEnd, TokenStream.atEnd, List.countP_cons]

@[simp] theorem countP_scansEnd_advance (s : TokenStream) :
    (advance s).actions.countP Action.scansEnd = s.next.atEnd :=
  countP_scansEnd_settle s.tail

theorem countP_missesEnd_settle (s : TokenStream) :
    (Parser.settle s).actions.countP Action.missesEnd = 0 := by
  rw [List.countP_eq_zero]
  intro x hx
  obtain ⟨t, -, rfl⟩ := List.mem_map.1 hx
  simp [Action.missesEnd]

@[simp] theorem countP_missesEnd_advance (s : TokenStream) :
    (advance s).actions.countP Action.missesEnd = 0 :=
  countP_missesEnd_settle s.tail

/-- Between two places of a stream, actions scan the end of the text when it is come to, and once
    more if it is found in place of an expression. After that nothing is read. -/
structure CountsEnds (s : TokenStream) (as : List Action) (s' : TokenStream) : Prop where
  add_eq : as.countP Action.scansEnd + s.atEnd = s'.atEnd + as.countP Action.missesEnd
  misses_le : as.countP Action.missesEnd ≤ s'.atEnd

/-- At the end of the text no operator follows. -/
theorem Reads.tail_of_eof {levels : Nat} {least : Precedence} {s s' : TokenStream}
    {as : List Action} (h : Reads (.tail levels least) s as s') (hk : s.current.kind = .eof) :
    as = [] ∧ s' = s := by
  cases h with
  | done _ => exact ⟨rfl, rfl⟩
  | more hk' hle h₁ h₂ =>
    rcases (Reads.more hk' hle h₁ h₂).paces with hnil | ⟨hne, -⟩
    · simp at hnil
    · exact absurd hk hne

namespace CountsEnds

variable {s s' s'' : TokenStream} {as bs : List Action}

/-- Actions that have nothing to do with the end of the text may stand anywhere. -/
theorem silent (hscans : as.countP Action.scansEnd = 0) (hmisses : as.countP Action.missesEnd = 0) :
    CountsEnds s as s := by
  constructor <;> omega

/-- Going on from a token of the text scans the end if that comes next. -/
theorem advance (hk : s.current.kind ≠ .eof) : CountsEnds s (advance s).actions s.next := by
  constructor
  · rw [countP_scansEnd_advance, countP_missesEnd_advance, TokenStream.atEnd_of_ne hk]
  · rw [countP_missesEnd_advance]
    exact Nat.zero_le _

/-- Actions follow each other unless something is missed at the end of the text in both. -/
theorem append (h : CountsEnds s as s') (h' : CountsEnds s' bs s'')
    (honce : as.countP Action.missesEnd = 0 ∨
      bs.countP Action.missesEnd = 0 ∧ s'.atEnd ≤ s''.atEnd) : CountsEnds s (as ++ bs) s'' := by
  obtain ⟨hadd, hle⟩ := h
  obtain ⟨hadd', hle'⟩ := h'
  constructor <;> simp only [List.countP_append] <;> omega

theorem behind (h : CountsEnds s as s') (hscans : bs.countP Action.scansEnd = 0)
    (hmisses : bs.countP Action.missesEnd = 0) : CountsEnds s (as ++ bs) s' :=
  h.append (.silent hscans hmisses) (.inr ⟨hmisses, Nat.le_refl _⟩)

/-- A token begins to play its role, and what follows is read. -/
theorem apply (h : CountsEnds s.next as s') (hk : s.current.kind ≠ .eof) (role : Role) :
    CountsEnds s ((Parser.advance s).actions ++ .apply role s.current :: as) s' := by
  have hrole : CountsEnds s.next [.apply role s.current] s.next := .silent rfl rfl
  exact (advance hk).append (hrole.append h (.inl rfl)) (.inl (countP_missesEnd_advance s))

/-- Operators follow only before the end of the text. -/
theorem tail {levels : Nat} {least : Precedence} (h : CountsEnds s as s')
    (hreads : Reads (.tail levels least) s' bs s'') (h' : CountsEnds s' bs s'') :
    CountsEnds s (as ++ bs) s'' := by
  by_cases hk : s'.current.kind = .eof
  · obtain ⟨rfl, rfl⟩ := hreads.tail_of_eof hk
    exact h.behind rfl rfl
  · have hnone := h.misses_le
    rw [TokenStream.atEnd_of_ne hk] at hnone
    exact h.append h' (.inl (Nat.le_zero.1 hnone))

end CountsEnds

/-- Whatever part is read, the end of the text is scanned when it is come to, and once more for a
    missing expression. -/
theorem Reads.countsEnds {part : Part} {s s' : TokenStream} {as : List Action}
    (h : Reads part s as s') (hs : s.Settled) (hinner : s.Inner) : CountsEnds s as s' := by
  induction h with
  | refused => exact .silent rfl rfl
  | @missing _ _ s _ =>
    have hle := hs.atEnd_le_next hinner
    constructor
    · simp [Action.scansEnd, Action.missesEnd, List.countP_cons, TokenStream.atEnd]
    · simpa [Action.missesEnd, List.countP_cons, TokenStream.atEnd] using hle
  | @begun _ _ s _ _ _ _ h₁ h₂ ih₁ ih₂ =>
    have hstart : CountsEnds s [.enter] s := .silent rfl rfl
    have htail := ih₂ (h₁.settled hs) (hinner.of_suffix (h₁.suffix hs))
    exact ((hstart.append (ih₁ hs hinner) (.inl rfl)).tail h₂ htail).behind rfl rfl
  | number hk => exact (CountsEnds.advance (by rw [hk]; decide)).behind rfl rfl
  | @negate _ s _ _ hk _ ih =>
    have hoperand := ih s.settled_next (hinner.of_suffix hs.suffix_next)
    exact (hoperand.apply (by rw [hk]; decide) .unary).behind rfl rfl
  | @closed _ s s₁ _ hk _ hc ih =>
    have hbody := ih s.settled_next (hinner.of_suffix hs.suffix_next)
    have hne : s₁.current.kind ≠ .eof := by rw [hc]; decide
    refine (hbody.apply (by rw [hk]; decide) .grouping).append (.advance hne) (.inr ⟨?_, ?_⟩)
    · exact countP_missesEnd_advance s₁
    · exact TokenStream.atEnd_of_ne hne ▸ Nat.zero_le _
  | @unclosed _ s _ _ hk _ _ ih =>
    have hbody := ih s.settled_next (hinner.of_suffix hs.suffix_next)
    exact (hbody.apply (by rw [hk]; decide) .grouping).behind rfl rfl
  | done _ => exact .silent rfl rfl
  | @more _ _ op s _ _ _ _ hk _ h₁ h₂ ih₁ ih₂ =>
    have hstart : CountsEnds s [.extend s.current] s := .silent rfl rfl
    have hnext := hinner.of_suffix hs.suffix_next
    have hright := (ih₁ s.settled_next hnext).apply (hk ▸ op.kind_ne_eof) .binary
    have htail := ih₂ (h₁.settled s.settled_next) (hnext.of_suffix (h₁.suffix s.settled_next))
    exact ((hstart.append hright (.inl rfl)).behind rfl rfl).tail h₂ htail

/-- Reading a whole stream comes to the end of the text and scans it twice, and once more if it is
    found in place of an expression; or it never comes there. -/
theorem countP_scansEnd_parse {s : TokenStream} (hinner : s.Inner) :
    (parse s).countP Action.scansEnd = 0 ∧ (parse s).countP Action.missesEnd = 0 ∨
      (parse s).countP Action.scansEnd = 2 + (parse s).countP Action.missesEnd ∧
        (parse s).countP Action.missesEnd ≤ 1 := by
  obtain ⟨as, s', hreads, hparse⟩ := exists_reads_parse s
  have hsettled := hreads.settled s.settled_settle
  have hinner' : s.settle.Inner := hinner.of_suffix (s.tokens_settle ▸ List.suffix_refl _)
  obtain ⟨hadd, hle⟩ := hreads.countsEnds s.settled_settle hinner'
  have hret : [Action.emit .ret].countP Action.scansEnd = 0 := rfl
  have hret' : [Action.emit .ret].countP Action.missesEnd = 0 := rfl
  rw [hparse]
  simp only [List.countP_append, countP_scansEnd_settle, countP_missesEnd_settle, hret, hret']
  by_cases hk : s'.current.kind = .eof
  · -- The end of the text is taken, and scanned once more.
    have hnext := hsettled.atEnd_le_next (hinner'.of_suffix (hreads.suffix s.settled_settle))
    have hlast := s'.next.atEnd_le
    rw [TokenStream.atEnd_of_eq hk] at hadd hle hnext
    rw [Parser.expect_of_eq hk, countP_scansEnd_advance, countP_missesEnd_advance]
    omega
  · have hreport : [Action.report .expectEnd s'.current].countP Action.scansEnd = 0 := rfl
    have hreport' : [Action.report .expectEnd s'.current].countP Action.missesEnd = 0 := rfl
    rw [TokenStream.atEnd_of_ne hk] at hadd hle
    rw [Parser.expect_of_ne hk, Parser.note_actions, hreport, hreport']
    omega

/-! ### Tokens of the text -/

namespace TokenStream

/-- The first tokens that are not the end of the text are those of the text. -/
theorem filter_ne_eof_take {s : TokenStream} (h : ∀ t ∈ s.body, t.kind ≠ .eof) (n : Nat) :
    (s.take n).filter (·.kind ≠ .eof) = s.body.take n := by
  induction n generalizing s with
  | zero => rfl
  | succ n ih =>
    obtain ⟨body, finish⟩ := s
    rw [take_succ, List.filter_cons]
    cases body with
    | nil =>
      have htail := ih (s := ⟨[], finish⟩) h
      simpa [current, tail, eof] using htail
    | cons t ts =>
      rw [List.forall_mem_cons] at h
      have htail := ih (s := ⟨ts, finish⟩) h.2
      simpa [current, tail, h.1] using htail

end TokenStream

/-! ### Whole texts -/

/-- Where reading a whole expression, with the actions `as`, comes to a part of it: as many operands
    are active as levels are taken and as have begun and not ended, the part is read there, all
    operands in it have ended at its end, and it takes one token at a time. -/
structure Part.ReadWithin (levels : Nat) (as : List Action) (active : Nat) (before : List Action)
    (part : Part) (s : TokenStream) : Prop where
  levels_eq : active + part.levels = levels
  count_eq : before.count .enter = before.count .leave + active
  read : ∃ bs s' after, as = before ++ bs ++ after ∧ Reads part s bs s' ∧ Nests part.levels bs ∧
    part.Paces s bs

/-- Reading a stream with some actions is bounded: there are not too many of them, operands nest no
    deeper than there are levels, and this is so at every part that is come to. An operand begins,
    goes on or is refused at such parts only. -/
structure BoundedBy (levels : Nat) (s : TokenStream) (as : List Action) : Prop where
  length_le : as.length ≤ 8 * s.body.length + 24
  nests : Nests levels as
  reached : ∀ active before part s',
    Reaches (.operand levels .assignment) s.settle active before part s' →
      part.ReadWithin levels as active ((Parser.settle s).actions ++ before) s'
  opened : ∀ before x after, as = before ++ x :: after → x.opens = true →
    ∃ active later part s', before = (Parser.settle s).actions ++ later ∧
      Reaches (.operand levels .assignment) s.settle active later part s' ∧ part.Opens s' x

/-- A compilation scans the tokens of a stream from the front, each of them once at most. It scans
    the end of the text never, if it stops before it, or twice, or three times, if an expression is
    missing there. -/
structure Compilation.ScansOnce (c : Compilation) (s : TokenStream) : Prop where
  in_order : c.scanned.filter (·.kind ≠ .eof) <+: s.body
  once : (c.scanned.filter (·.kind ≠ .eof)).Nodup
  ends : c.scanned.countP (·.kind = .eof) ∈ [0, 2, 3]
  stopped : c.scanned.countP (·.kind = .eof) = 0 ↔
    ∃ d ∈ c.diagnostics, d.cause.message = "Expect end of expression."
  missed : c.scanned.countP (·.kind = .eof) = 3 ↔
    ∃ d ∈ c.diagnostics, d.cause.message = "Expect expression." ∧
      d.position = s.finish

/-- No token of a source text stands for its end. -/
theorem inner_scan (source : String) : (scan source).Inner :=
  fun _ ht => kind_ne_eof_of_mem_scan (List.mem_of_mem_filter ht)

/-- What is logged as scanned is what the parser scans. -/
theorem scanned_compileInto (chunk : Chunk) (source : String) :
    (compileInto chunk source).scanned = (parse (scan source)).filterMap Action.scanned? := rfl

/-- Of the tokens that are complained about, the end of the text is the one that stands there. -/
theorem Covers.kind_eq_eof_iff {source : String} {as : List Action} {n : Nat}
    {complaint : Complaint} {t : Token} (h : Covers (scan source) as n)
    (ht : .report complaint t ∈ as) :
    t.kind = .eof ↔ t.position = (scan source).finish := by
  have hsite : t ∈ as.filterMap Action.site? := List.mem_filterMap.2 ⟨_, ht, rfl⟩
  rcases TokenStream.mem_body_or_eq_eof (h.mem_take_of_mem_sites hsite).1 with hbody | rfl
  · have hlt := (TokenStream.ordered_scan source).position_lt_finish hbody
    exact iff_of_false (kind_ne_eof_of_mem_scan hbody) hlt.ne
  · exact iff_of_true rfl rfl

/-- An action misses the text's end where it reports that this is no expression. -/
theorem Action.missesEnd_iff {x : Action} :
    x.missesEnd = true ↔ ∃ t, x = .report .expectExpression t ∧ t.kind = .eof := by
  unfold missesEnd
  split <;> simp_all

/-- Compiling says that an expression is missing at the end of a text if and only if reading finds
    it in place of one. -/
theorem countP_missesEnd_pos_iff (chunk : Chunk) (source : String) :
    0 < (parse (scan source)).countP Action.missesEnd ↔
      ∃ d ∈ (compileInto chunk source).diagnostics,
        d.cause.message = Complaint.expectExpression.message ∧
          d.position = (scan source).finish := by
  obtain ⟨as, n, hparse, hcovers, -⟩ := exists_covers_parse (scan source)
  rw [List.countP_pos_iff]
  constructor
  · rintro ⟨x, hx, hmisses⟩
    obtain ⟨t, rfl, heof⟩ := Action.missesEnd_iff.1 hmisses
    have hreport : .report .expectExpression t ∈ as := by simpa [hparse] using hx
    refine ⟨⟨.grammatical .expectExpression, t.position⟩, ?_, rfl, ?_⟩
    · rw [diagnostics_compileInto hparse]
      exact Assembly.mem_remarksAll_of_report _ hreport
    · exact (hcovers.kind_eq_eof_iff hreport).1 heof
  · rintro ⟨d, hd, hm, hposition⟩
    have hcause := cause_eq_of_mem_diagnostics hd hm
    rw [diagnostics_compileInto hparse] at hd
    obtain ⟨t, hreport, hsame⟩ := Assembly.exists_report_of_cause hd hcause (by decide)
    have heof := (hcovers.kind_eq_eof_iff hreport).2 (hsame.symm.trans hposition)
    exact ⟨_, by simp [hparse, hreport], Action.missesEnd_iff.2 ⟨t, rfl, heof⟩⟩

/-- Compiling scans every token of the text at most once, in order. -/
theorem scansOnce_compileInto (chunk : Chunk) (source : String) :
    (compileInto chunk source).ScansOnce (scan source) := by
  obtain ⟨as, n, hparse, hcovers, hends⟩ := exists_covers_parse (scan source)
  have hscanned : (compileInto chunk source).scanned = (scan source).take (n + 1) := by
    rw [← hcovers.scanned, scanned_compileInto, hparse, List.filterMap_append]
    exact List.append_nil _
  have htokens := TokenStream.filter_ne_eof_take (s := scan source)
    (fun t ht => kind_ne_eof_of_mem_scan ht) (n + 1)
  have hcount : (compileInto chunk source).scanned.countP (·.kind = .eof)
      = (parse (scan source)).countP Action.scansEnd :=
    (countP_scansEnd _).symm
  have hall := countP_scansEnd_parse (inner_scan source)
  constructor
  case in_order =>
    rw [hscanned, htokens]
    exact List.take_prefix _ _
  case once =>
    rw [hscanned, htokens]
    exact (TokenStream.ordered_scan source).nodup_body.sublist (List.take_sublist _ _)
  case ends =>
    rw [hcount]
    simp only [List.mem_cons, List.not_mem_nil, or_false]
    omega
  case stopped =>
    rw [List.countP_eq_zero, hscanned, diagnostics_compileInto hparse]
    rcases hcovers.stopped_or_finished hends { chunk } with ⟨hopen, hlast⟩ | ⟨⟨t, ht, heof⟩, hnone⟩
    · exact iff_of_true (by simpa using hopen) ⟨_, List.mem_of_getLast? hlast, rfl⟩
    · refine iff_of_false (fun hopen => hopen t ht (by simpa using heof)) ?_
      rintro ⟨d, hd, hm⟩
      exact hnone d hd hm
  case missed =>
    have hpos := countP_missesEnd_pos_iff chunk source
    rw [hcount]
    exact Iff.trans (by omega) hpos

/-- A compilation scans little more than there is. -/
theorem Compilation.ScansOnce.length_le {c : Compilation} {s : TokenStream} (h : c.ScansOnce s) :
    c.scanned.length ≤ s.body.length + 3 := by
  have hends := h.ends
  have htokens := h.in_order.length_le
  have hsplit : c.scanned.length = c.scanned.countP (·.kind = .eof)
      + c.scanned.countP (fun t => ¬ decide (t.kind = .eof)) :=
    List.length_eq_countP_add_countP _
  rw [← List.countP_eq_length_filter] at htokens
  simp only [List.mem_cons, List.not_mem_nil, or_false, decide_eq_true_eq, ne_eq] at *
  omega

/-- Behind the expression, nothing begins or ends. -/
theorem opens_expect_end (s : TokenStream) :
    ∀ y ∈ (Parser.expect .eof .expectEnd s).actions ++ [.emit .ret],
      y.opens = false ∧ y ≠ .leave := by
  rw [List.forall_mem_append, List.forall_mem_singleton]
  refine ⟨?_, rfl, nofun⟩
  by_cases hk : s.current.kind = .eof
  · rw [Parser.expect_of_eq hk]
    intro y hy
    refine ⟨opens_advance s y hy, ?_⟩
    rintro rfl
    exact nomatch takes_of_mem_advance hy
  · rw [Parser.expect_of_ne hk]
    exact List.forall_mem_singleton.2 ⟨rfl, nofun⟩

/-- Reading a text is bounded by the levels that there are. -/
theorem boundedBy_parse (source : String) :
    BoundedBy levelMax (scan source) (parse (scan source)) := by
  obtain ⟨as, s', hreads, hparse⟩ := exists_reads_parse (scan source)
  rw [List.append_assoc] at hparse
  have hfront := opens_settle (scan source)
  have hback := opens_expect_end s'
  generalize (Parser.expect .eof .expectEnd s').actions ++ [.emit .ret] = back at hparse hback
  constructor
  case length_le =>
    have hpaid := owes_parse (scan source)
    have hscans := (scansOnce_compileInto .empty source).length_le
    rw [scanned_compileInto, ← countP_isScan] at hscans
    unfold Owes at hpaid
    omega
  case nests =>
    rw [hparse]
    refine ((Nests.settle _ _).append hreads.nests).append (.flat ?_ ?_ _)
    · exact fun h => nomatch (hback _ h).1
    · exact fun h => (hback _ h).2 rfl
  case reached =>
    intro active before part s₁ hreaches
    obtain ⟨bs, s₂, after, hpart, rfl⟩ := hreaches.exists_reads hreads
    refine ⟨hreaches.levels_eq, ?_, bs, s₂, after ++ back, ?_, hpart, hpart.nests, hpart.paces⟩
    · have hcount := hreaches.count_eq
      have hsettle := (Nests.settle (scan source) 0).balanced
      simp only [List.count_append]
      omega
    · simp [hparse]
  case opened =>
    intro before x after heq hx
    rw [hparse] at heq
    -- Neither before the expression nor behind it is there such an action.
    rcases exists_or_exists_of_append_eq heq with ⟨rest, hrest⟩ | ⟨_, -, hrest⟩
    · rcases exists_or_exists_of_append_eq hrest with ⟨_, hsettle⟩ | ⟨later, hbefore, hinside⟩
      · exact absurd hsettle (ne_append_cons_of_opens hx hfront)
      · obtain ⟨active, part, s₁, hreaches, hopens⟩ := hreads.exists_reaches hx hinside
        exact ⟨active, later, part, s₁, hbefore, hreaches, hopens⟩
    · exact absurd hrest (ne_append_cons_of_opens hx fun y hy => (hback y hy).1)

/-- **Reading and scanning are bounded on every text.** There are no more than eight actions for
    each token, and a few more. No more than 1024 operands are active at once, which is as many as
    levels are taken wherever a part is read, and as many as before when its reading is over. An
    operand begins with one token and goes on with one that is not the end of the text. Every token
    of the text is scanned once at most, and its end never, twice or three times. -/
theorem compileInto_bounded (chunk : Chunk) (source : String) :
    BoundedBy 1024 (scan source) (parse (scan source)) ∧
      (compileInto chunk source).ScansOnce (scan source) :=
  ⟨boundedBy_parse source, scansOnce_compileInto chunk source⟩

-- An operand is missing at the end of the text, which is scanned once more than behind `1 + 2`.
example : (compileInto .empty "1 +").scanned.countP (·.kind = .eof) = 3 := by decide +kernel

end Abacus
