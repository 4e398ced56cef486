import Abacus.Compilation
import Abacus.Proofs.Climbing
import Abacus.Proofs.Emission
import Abacus.Proofs.Numeral

namespace Abacus

open Abacus.Parser (advance)

/-!
# The first complaint

A reader that counts the open parentheses, and knows whether an operand or an operator has to come,
tells at once which token cannot go on. The parser keeps no such count, and yet its first complaint
is about that token.

* `Progress.step`, `Progress.run` — the counting reader.
* `Progress.FailsAt` — the token at which the reader fails, and the words in which it says so;
  `Progress.failsAt_of_run` — they are those of its complaint.
* `Reads.agrees` — what the parser reads moves the reader as it should, and the parser complains
  first where the reader fails, unless a limit stops it before.
* `Assembly.tells_performAll` — what becomes of complaints when code is written.
* `compileInto_firstComplaint?` — the first complaint about a source text is that of the reader.
-/

/-! ### The counting reader -/

/-- What has to come next in an expression. -/
inductive Awaited where
  | operand
  | operator
  deriving DecidableEq

/-- How far an expression is read. -/
structure Progress where
  /-- How many parentheses are open. -/
  opened : Nat
  awaited : Awaited
  deriving DecidableEq

/-- What a token does to a reader. -/
inductive Outcome where
  | goesOn (progress : Progress)
  | accepts
  | fails (complaint : Complaint)
  deriving DecidableEq

/-- How a reader ends. -/
inductive Verdict where
  | accepted
  | failed (complaint : Complaint) (token : Token)
  /-- There was no token to end with. -/
  | undecided
  deriving DecidableEq

namespace Progress

/-- Nothing is read yet. -/
def start : Progress := ⟨0, .operand⟩

/-- What a kind of token does. -/
def step : Progress → Kind → Outcome
  | ⟨k, .operand⟩, .number => .goesOn ⟨k, .operator⟩
  | ⟨k, .operand⟩, .delimiter .leftParen => .goesOn ⟨k + 1, .operand⟩
  | ⟨k, .operand⟩, .operator .minus false => .goesOn ⟨k, .operand⟩
  | ⟨_, .operand⟩, _ => .fails .expectExpression
  | ⟨k, .operator⟩, .operator .plus false => .goesOn ⟨k, .operand⟩
  | ⟨k, .operator⟩, .operator .minus false => .goesOn ⟨k, .operand⟩
  | ⟨k, .operator⟩, .operator .star false => .goesOn ⟨k, .operand⟩
  | ⟨k, .operator⟩, .operator .slash false => .goesOn ⟨k, .operand⟩
  | ⟨k + 1, .operator⟩, .delimiter .rightParen => .goesOn ⟨k, .operator⟩
  | ⟨0, .operator⟩, .eof => .accepts
  | ⟨0, .operator⟩, _ => .fails .expectEnd
  | ⟨_ + 1, .operator⟩, _ => .fails .expectClosing

/-- Reads tokens until one ends it. -/
def run : Progress → List Token → Verdict
  | _, [] => .undecided
  | p, t :: ts =>
    match p.step t.kind with
    | .goesOn p' => p'.run ts
    | .accepts => .accepted
    | .fails complaint => .failed complaint t

/-- The words in which a reader says that a token cannot go on. -/
def objection : Progress → String
  | ⟨_, .operand⟩ => "Expect expression."
  | ⟨_ + 1, .operator⟩ => "Expect ')' after expression."
  | ⟨0, .operator⟩ => "Expect end of expression."

/-- The first token that cannot go on, and what a reader says there. -/
inductive FailsAt : Progress → List Token → Token → String → Prop where
  | here {p : Progress} {t : Token} {ts : List Token} {complaint : Complaint} :
      p.step t.kind = .fails complaint → FailsAt p (t :: ts) t p.objection
  | later {p q : Progress} {t u : Token} {ts : List Token} {text : String} :
      p.step t.kind = .goesOn q → FailsAt q ts u text → FailsAt p (t :: ts) u text

/-- What has to come next tells the wording of a complaint. -/
theorem message_of_step {p : Progress} {kind : Kind} {complaint : Complaint}
    (h : p.step kind = .fails complaint) : complaint.message = p.objection := by
  unfold step at h
  split at h
  -- Most branches do not fail; in the others the wording is that of the state.
  all_goals cases h
  all_goals rfl

/-- A reader fails at a token with the words of its complaint. -/
theorem failsAt_of_run {p : Progress} {ts : List Token} {complaint : Complaint} {t : Token}
    (h : p.run ts = .failed complaint t) : p.FailsAt ts t complaint.message := by
  induction ts generalizing p with
  | nil => cases h
  | cons u us ih =>
    rw [run] at h
    cases hstep : p.step u.kind with
    | goesOn q =>
      rw [hstep] at h
      exact .later hstep (ih h)
    | accepts =>
      rw [hstep] at h
      cases h
    | fails c =>
      rw [hstep] at h
      cases h
      rw [message_of_step hstep]
      exact .here hstep

/-- The end of the text always ends a reader. -/
theorem step_eof_ne (p p' : Progress) : p.step .eof ≠ .goesOn p' := by
  obtain ⟨k, a⟩ := p
  cases a with
  | operand =>
    intro h
    cases h
  | operator =>
    intro h
    cases k <;> cases h

/-- A token that begins no operand cannot stand for one. -/
theorem step_of_starts {kind : Kind} (h : (Rule.of kind).starts = none) (k : Nat) :
    step ⟨k, .operand⟩ kind = .fails .expectExpression := by
  cases kind with
  | delimiter mark => cases mark <;> first | rfl | exact absurd h (by decide)
  | operator mark joined =>
    cases mark <;> cases joined <;> first | rfl | exact absurd h (by decide)
  | number => exact absurd h (by decide)
  | _ => rfl

/-- An operator after an operand asks for another operand. -/
theorem step_operator (op : BinaryOp) (k : Nat) :
    step ⟨k, .operator⟩ op.kind = .goesOn ⟨k, .operand⟩ := by
  cases op <;> cases k <;> rfl

/-- Between parentheses, what no operator goes on with has to be closed. -/
theorem step_unclosed {kind : Kind} (h : (Rule.of kind).binding < .assignment)
    (hne : kind ≠ .delimiter .rightParen) (k : Nat) :
    step ⟨k + 1, .operator⟩ kind = .fails .expectClosing := by
  cases kind with
  | delimiter mark => cases mark <;> first | rfl | exact absurd rfl hne
  | operator mark joined =>
    cases mark <;> cases joined <;> first | rfl | exact absurd h (by decide)
  | _ => rfl

/-- Outside parentheses, what no operator goes on with has to end the text. -/
theorem step_unended {kind : Kind} (h : (Rule.of kind).binding < .assignment)
    (hne : kind ≠ .eof) : step ⟨0, .operator⟩ kind = .fails .expectEnd := by
  cases kind with
  | delimiter mark => cases mark <;> rfl
  | operator mark joined =>
    cases mark <;> cases joined <;> first | rfl | exact absurd h (by decide)
  | eof => exact absurd rfl hne
  | _ => rfl

end Progress

/-! ### The reader on a stream -/

namespace TokenStream

variable {s : TokenStream} {p p' : Progress}

/-- How a reader ends on the tokens of a stream that count, the end of the text included. -/
def verdict (s : TokenStream) (p : Progress) : Verdict := p.run (s.tokens ++ [s.eof])

/-- The tokens that are no errors are those that the parser sees, and the end of the text. -/
theorem filter_toList (s : TokenStream) :
    s.toList.filter (!·.isError) = s.tokens ++ [s.eof] :=
  List.filter_append ..

/-- The reader sees the token at the front first. -/
theorem Settled.exists_tokens_eq (h : s.Settled) :
    ∃ ts, s.tokens ++ [s.eof] = s.current :: ts := by
  rcases h.tokens_eq with ⟨ht, hc⟩ | ht
  · exact ⟨[], by rw [ht, hc]; rfl⟩
  · exact ⟨s.next.tokens ++ [s.eof], by rw [ht]; rfl⟩

/-- A token that goes on leaves the verdict to what follows it. -/
theorem Settled.verdict_goesOn (h : s.Settled) (hstep : p.step s.current.kind = .goesOn p') :
    s.verdict p = s.next.verdict p' := by
  have hne : s.current.kind ≠ .eof := by
    intro hk
    rw [hk] at hstep
    exact Progress.step_eof_ne p p' hstep
  show Progress.run p (s.tokens ++ [s.eof]) = _
  rw [h.tokens_of_ne hne, List.cons_append, Progress.run, hstep]
  rfl

/-- A token that fails decides the verdict. -/
theorem Settled.verdict_fails (h : s.Settled) {complaint : Complaint}
    (hstep : p.step s.current.kind = .fails complaint) :
    s.verdict p = .failed complaint s.current := by
  obtain ⟨ts, ht⟩ := h.exists_tokens_eq
  rw [verdict, ht, Progress.run, hstep]

theorem Settled.verdict_accepts (h : s.Settled) (hstep : p.step s.current.kind = .accepts) :
    s.verdict p = .accepted := by
  obtain ⟨ts, ht⟩ := h.exists_tokens_eq
  rw [verdict, ht, Progress.run, hstep]

end TokenStream

/-! ### The parser and the reader -/

/-- What a reader awaits where a part begins. -/
def Part.awaited : Part → Awaited
  | .operand _ _ | .head _ => .operand
  | .tail _ _ => .operator

/-- The first complaint of the parser is where the reader fails, if no limit stops the parser
    before; without a complaint the reader goes on. -/
def Agrees (first : Option (Complaint × Token)) (before after : Verdict) : Prop :=
  match first with
  | none => before = after
  | some (complaint, t) => complaint = .nestedTooDeeply ∨ before = .failed complaint t

/-- What comes after matters only if there was no complaint before. -/
theorem Agrees.trans {first second : Option (Complaint × Token)} {u v w : Verdict}
    (h : Agrees first u v) (h' : first = none → Agrees second v w) :
    Agrees (first.or second) u w := by
  cases first with
  | none =>
    have huv : u = v := h
    rw [huv]
    exact h' rfl
  | some r => exact h

/-- Reading a part moves the reader from what the part begins with to where an operator is awaited,
    under as many open parentheses as before. -/
theorem Reads.agrees {part : Part} {s s' : TokenStream} {as : List Action}
    (h : Reads part s as s') (hs : s.Settled) (k : Nat) :
    Agrees (firstReport as) (s.verdict ⟨k, part.awaited⟩) (s'.verdict ⟨k, .operator⟩) := by
  induction h generalizing k with
  | refused => exact .inl rfl
  | missing hn =>
    have hv := hs.verdict_fails (Progress.step_of_starts hn k)
    simpa [Action.report?, Part.awaited, Agrees] using hv
  | begun h₁ _ ih₁ ih₂ =>
    have ha := (ih₁ hs k).trans fun _ => ih₂ (h₁.settled hs) k
    simpa [Action.report?, Part.awaited] using ha
  | @number _ s hk =>
    have hv : s.verdict ⟨k, .operand⟩ = s.next.verdict ⟨k, .operator⟩ :=
      hs.verdict_goesOn (by rw [hk]; rfl)
    simpa [Action.report?, Part.awaited, Agrees] using hv
  | @negate _ s _ _ hk _ ih =>
    have hv : s.verdict ⟨k, .operand⟩ = s.next.verdict ⟨k, .operand⟩ :=
      hs.verdict_goesOn (by rw [hk]; rfl)
    have ha := ih s.settled_next k
    simpa [Action.report?, Part.awaited, hv] using ha
  | @closed _ s s₁ _ hk h₁ hc ih =>
    -- The reader counts the parenthesis up, and down again when it is closed.
    have hv : s.verdict ⟨k, .operand⟩ = s.next.verdict ⟨k + 1, .operand⟩ :=
      hs.verdict_goesOn (by rw [hk]; rfl)
    have hv₁ : s₁.verdict ⟨k + 1, .operator⟩ = s₁.next.verdict ⟨k, .operator⟩ :=
      (h₁.settled s.settled_next).verdict_goesOn (by rw [hc]; rfl)
    have ha := ih s.settled_next (k + 1)
    rw [hv₁] at ha
    simpa [Action.report?, Part.awaited, hv] using ha
  | @unclosed _ s s₁ as hk h₁ hc ih =>
    have hv : s.verdict ⟨k, .operand⟩ = s.next.verdict ⟨k + 1, .operand⟩ :=
      hs.verdict_goesOn (by rw [hk]; rfl)
    have ha : Agrees ((firstReport as).or (some (.expectClosing, s₁.current)))
        (s.next.verdict ⟨k + 1, .operand⟩) (s₁.verdict ⟨k, .operator⟩) := by
      refine (ih s.settled_next (k + 1)).trans fun hq => .inr ?_
      -- The body went as far as it could, so no operator follows.
      have hb := (h₁.derives s.settled_next hq).1
      exact (h₁.settled s.settled_next).verdict_fails (Progress.step_unclosed hb hc k)
    simpa [Action.report?, Part.awaited, hv] using ha
  | done _ => rfl
  | @more _ _ op s s₁ _ _ _ hk _ h₁ _ ih₁ ih₂ =>
    have hv : s.verdict ⟨k, .operator⟩ = s.next.verdict ⟨k, .operand⟩ :=
      hs.verdict_goesOn (by rw [hk]; exact Progress.step_operator op k)
    have ha := (ih₁ s.settled_next k).trans fun _ => ih₂ (h₁.settled s.settled_next) k
    simpa [Action.report?, Part.awaited, hv] using ha

/-- Reading a whole stream, the parser complains first where the reader fails. -/
theorem agrees_parse (s : TokenStream) :
    Agrees (firstReport (parse s)) (s.verdict .start) .accepted := by
  obtain ⟨as, s', h, hparse⟩ := exists_reads_parse s
  have hs' := h.settled s.settled_settle
  have hv : s.settle.verdict .start = s.verdict .start := by
    show Progress.run _ (s.settle.tokens ++ [s.eof]) = _
    rw [s.tokens_settle]
    rfl
  have ha : Agrees ((firstReport as).or (firstReport (Parser.expect .eof .expectEnd s').actions))
      (s.settle.verdict .start) .accepted := by
    refine (h.agrees s.settled_settle 0).trans fun hq => ?_
    -- No operator can follow, so the text ends here or the reader fails.
    have hb := (h.derives s.settled_settle hq).1
    by_cases hk : s'.current.kind = .eof
    · rw [Parser.expect_of_eq hk, firstReport_advance]
      exact hs'.verdict_accepts (by rw [hk]; rfl)
    · rw [Parser.expect_of_ne hk]
      exact .inr (hs'.verdict_fails (Progress.step_unended hb hk))
  rw [hv] at ha
  simpa [hparse, Action.report?] using ha

/-! ### Complaints among the diagnostics -/

/-- Is a complaint about a limit that an expression exceeds? -/
def Complaint.isLimit : Complaint → Bool
  | tooManyConstants | tooDeepForStack | nestedTooDeeply => true
  | expectExpression | expectClosing | expectEnd | invalidNumber => false

/-- The complaint about tokens that a diagnostic makes, and its position. -/
def Diagnostic.complaint? : Diagnostic → Option (Complaint × Position)
  | ⟨.grammatical complaint, position⟩ => some (complaint, position)
  | ⟨.lexical _, _⟩ => none

/-- The first complaint about tokens among some diagnostics. -/
def firstComplaint? (ds : List Diagnostic) : Option (Complaint × Position) :=
  ds.findSome? Diagnostic.complaint?

theorem firstComplaint?_append (ds es : List Diagnostic) :
    firstComplaint? (ds ++ es) = (firstComplaint? ds).or (firstComplaint? es) :=
  List.findSome?_append

/-- A complaint about a token, and where the token is. -/
def located (report : Complaint × Token) : Complaint × Position :=
  (report.1, report.2.position)

/-- Something is reported as such, or a limit is exceeded before. -/
def Tells (first : Option (Complaint × Position)) (report : Option (Complaint × Token)) : Prop :=
  (∃ r, first = some r ∧ r.1.isLimit = true) ∨ first = report.map located

/-- Told one after the other, the first report is the one that is told. -/
theorem Tells.or {first second : Option (Complaint × Position)}
    {report later : Option (Complaint × Token)} (h : Tells first report) (h' : Tells second later) :
    Tells (first.or second) (report.or later) := by
  rcases h with ⟨r, rfl, hr⟩ | rfl
  · exact .inl ⟨r, rfl, hr⟩
  · cases report with
    | none => exact h'
    | some r => exact .inr rfl

namespace Assembly

/-- One action tells what it reports, or that a limit is exceeded. -/
theorem tells_remarks (a : Assembly) {action : Action} {ts : List Token} (hr : Readable ts)
    (h : action.InnerTo ts) : Tells (firstComplaint? (a.remarks action)) action.report? := by
  cases action with
  | scan t =>
    rw [remarks]
    split <;> exact .inr rfl
  | literal t =>
    obtain ⟨x, hx⟩ := hr t h.1 h.2
    simp only [remarks, hx]
    -- A number that can be read is refused for lack of room only.
    by_cases hc : a.chunk.constants.size < constantMax
    · by_cases hp : a.pending + 1 = stackMax + 1
      · rw [if_pos hc, if_pos hp]
        exact .inl ⟨_, rfl, rfl⟩
      · rw [if_pos hc, if_neg hp]
        exact .inr rfl
    · rw [if_neg hc]
      exact .inl ⟨_, rfl, rfl⟩
  | _ => exact .inr rfl

/-- What actions report first is told first, or a limit is exceeded before. -/
theorem tells_performAll (a : Assembly) {as : List Action} {ts : List Token} (hr : Readable ts)
    (h : ∀ x ∈ as, x.InnerTo ts) :
    ∃ first, Tells first (firstReport as) ∧
      firstComplaint? (a.performAll as).diagnostics.toList
        = (firstComplaint? a.diagnostics.toList).or first := by
  induction as generalizing a with
  | nil => exact ⟨none, .inr rfl, Option.or_none.symm⟩
  | cons action as ih =>
    have hhead := a.tells_remarks hr (h action (List.mem_cons_self ..))
    obtain ⟨first, hfirst, heq⟩ :=
      ih (a.perform action) fun x hx => h x (List.mem_cons_of_mem _ hx)
    refine ⟨(firstComplaint? (a.remarks action)).or first, ?_, ?_⟩
    · rw [firstReport_cons]
      exact hhead.or hfirst
    · rw [performAll_cons, heq, perform_diagnostics, firstComplaint?_append, Option.or_assoc]

end Assembly

/-- What is told first about a source text is what the parser reports first, or that a limit is
    exceeded. -/
theorem tells_compileInto (chunk : Chunk) (source : String) :
    Tells (firstComplaint? (compileInto chunk source).diagnostics)
      (firstReport (parse (scan source))) := by
  obtain ⟨as, hparse, hinner⟩ := exists_parse_eq (scan source)
  have hr : Readable (scan source).tokens :=
    (readable_scan source).subset fun _ ht => (List.mem_filter.1 ht).1
  obtain ⟨first, hfirst, heq⟩ := Assembly.tells_performAll { chunk } hr hinner
  have hreport : firstReport (parse (scan source)) = firstReport as := by
    simp [hparse, Action.report?]
  have hdiag : (compileInto chunk source).diagnostics
      = (Assembly.performAll { chunk } as).diagnostics.toList := by
    show (Assembly.performAll { chunk } (parse (scan source))).diagnostics.toList = _
    rw [hparse, Assembly.performAll_append]
    rfl
  rw [hreport, hdiag, heq]
  exact hfirst

/-- How the counting reader ends on the tokens of a source text that are no errors. -/
def readerVerdict (source : String) : Verdict :=
  Progress.start.run ((scan source).toList.filter (!·.isError))

/-- The reader of a source text is the reader on its stream. -/
theorem readerVerdict_eq (source : String) :
    readerVerdict source = (scan source).verdict .start := by
  unfold readerVerdict TokenStream.verdict
  rw [TokenStream.filter_toList]

/-- **The first complaint is at the earliest token that cannot go on.** Where no limit is exceeded
    first, a source text has no complaint about its tokens exactly if the counting reader accepts
    them, and otherwise the first complaint is the reader's, at the token at which it fails and in
    the words that what has to come next there calls for. -/
theorem compileInto_firstComplaint? (chunk : Chunk) (source : String)
    (h : ∀ r, firstComplaint? (compileInto chunk source).diagnostics = some r →
      r.1.isLimit = false) :
    (firstComplaint? (compileInto chunk source).diagnostics = none ↔
      readerVerdict source = .accepted) ∧
    (readerVerdict source ≠ .accepted →
      ∃ complaint t, readerVerdict source = .failed complaint t ∧
        firstComplaint? (compileInto chunk source).diagnostics = some (complaint, t.position) ∧
        Progress.start.FailsAt ((scan source).toList.filter (!·.isError)) t
          complaint.message) := by
  have ha := agrees_parse (scan source)
  rw [← readerVerdict_eq] at ha
  rcases tells_compileInto chunk source with ⟨r, hr, hlimit⟩ | htells
  · rw [h r hr] at hlimit
    cases hlimit
  · cases hreport : firstReport (parse (scan source)) with
    | none =>
      rw [hreport] at ha htells
      have haccepted : readerVerdict source = .accepted := ha
      exact ⟨iff_of_true htells haccepted, fun hne => absurd haccepted hne⟩
    | some report =>
      obtain ⟨complaint, t⟩ := report
      rw [hreport] at ha htells
      -- The limit on nesting is a limit, and none is exceeded first.
      have hfailed : readerVerdict source = .failed complaint t := by
        rcases ha with rfl | hv
        · have hlimit : true = false := h _ htells
          cases hlimit
        · exact hv
      have hfails := Progress.failsAt_of_run hfailed
      rw [htells, hfailed]
      exact ⟨iff_of_false (by simp) (by simp), fun _ => ⟨complaint, t, rfl, rfl, hfails⟩⟩

/-- In `2 * (3 + ) - 4)` the sum lacks an operand, and what comes after it does not matter. -/
theorem compileInto_firstComplaint?_sum :
    firstComplaint? (compileInto .empty "2 * (3 + ) - 4)").diagnostics
        = some (.expectExpression, ⟨1, 10⟩) ∧
      Complaint.expectExpression.message = "Expect expression." ∧
      ∃ complaint t, readerVerdict "2 * (3 + ) - 4)" = .failed complaint t ∧
        firstComplaint? (compileInto .empty "2 * (3 + ) - 4)").diagnostics
          = some (complaint, t.position) ∧
        Progress.start.FailsAt ((scan "2 * (3 + ) - 4)").toList.filter (!·.isError)) t
          complaint.message := by
  have hfirst : firstComplaint? (compileInto .empty "2 * (3 + ) - 4)").diagnostics
      = some (.expectExpression, ⟨1, 10⟩) := by decide +kernel
  have hlimit : ∀ r, firstComplaint? (compileInto .empty "2 * (3 + ) - 4)").diagnostics = some r →
      r.1.isLimit = false := by
    intro r hr
    rw [hfirst, Option.some.injEq] at hr
    rw [← hr]
    rfl
  have h := compileInto_firstComplaint? .empty "2 * (3 + ) - 4)" hlimit
  exact ⟨hfirst, rfl, h.2 (by decide +kernel)⟩

end Abacus
