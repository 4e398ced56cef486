import Abacus.Event
import Abacus.Proofs.PositionOrder
import Abacus.Proofs.Remarks

namespace Abacus

open Abacus.Parser (advance)

/-!
# Diagnostics and the log follow the tokens

Compiling scans tokens from the front of the stream, one after the other, and complains about tokens
that it has scanned, never about an earlier one after a later one.

* `TokenStream.take`, `TokenStream.drop` — the endless stream cut at an index.
* `Tracks s as s'` — actions scan the tokens between two places of a stream, and are about tokens
  among these, in order; `Reads.tracks` says so of reading any part of an expression.
* `Covers s as n`, `Ends s n as` — the same from the front of a stream up to an index, and what
  happens there; `exists_covers_parse` says so of reading the whole.
* `exists_token_of_mem_diagnostics` — what can be said about a source text, and where.
* `Compilation.Follows`, `compileInto_follows` — what this means for the log and the diagnostics.
-/

/-! ### Streams by index -/

namespace TokenStream

/-- The stream without its first tokens. -/
def drop (s : TokenStream) (n : Nat) : TokenStream := { s with body := s.body.drop n }

/-- The first tokens of the endless stream. -/
def take (s : TokenStream) (n : Nat) : List Token := (List.range n).map s.get

@[simp] theorem drop_drop (s : TokenStream) (n m : Nat) : (s.drop n).drop m = s.drop (n + m) := by
  simp [drop, List.drop_drop]

theorem tail_eq_drop (s : TokenStream) : s.tail = s.drop 1 := by
  simp [drop, tail]

@[simp] theorem get_drop (s : TokenStream) (n i : Nat) : (s.drop n).get i = s.get (n + i) := by
  simp [get, drop, eof, List.getElem?_drop]

/-- Behind some tokens, the next one of the stream is in front. -/
theorem current_drop (s : TokenStream) (n : Nat) : (s.drop n).current = s.get n := by
  rw [← get_zero, get_drop, Nat.add_zero]

theorem take_add (s : TokenStream) (n m : Nat) :
    s.take (n + m) = s.take n ++ (s.drop n).take m := by
  simp only [take, List.range_add, List.map_append, List.map_map]
  congr 2
  funext i
  exact (s.get_drop n i).symm

theorem take_succ (s : TokenStream) (n : Nat) : s.take (n + 1) = s.current :: s.tail.take n := by
  rw [Nat.add_comm, take_add, ← tail_eq_drop, ← get_zero]
  rfl

/-- The last of the tokens that are taken is the one at the last index. -/
theorem getLast?_take (s : TokenStream) (n : Nat) : (s.take (n + 1)).getLast? = some (s.get n) := by
  rw [take, List.range_succ, List.map_append]
  exact List.getLast?_concat

theorem tail_mk_cons (t : Token) (ts : List Token) (finish : Position) :
    tail ⟨t :: ts, finish⟩ = ⟨ts, finish⟩ := rfl

/-- The errors among the first tokens are those of the text. -/
theorem filter_isError_take (s : TokenStream) (n : Nat) :
    (s.take n).filter (·.isError) = (s.body.take n).filter (·.isError) := by
  induction n generalizing s with
  | zero => rfl
  | succ n ih =>
    rw [take_succ, List.filter_cons, ih]
    obtain ⟨body, finish⟩ := s
    cases body with
    | nil => simp [current, tail, eof, Token.isError]
    | cons t ts => simp [current, tail, List.filter_cons]

/-- Up to a token that is not the end of the text, all are tokens of the text. -/
theorem get_mem_body {s : TokenStream} {i n : Nat} (hn : (s.get n).kind ≠ .eof) (hi : i ≤ n) :
    s.get i ∈ s.body := by
  have hlt : n < s.body.length := by
    by_contra hle
    refine hn ?_
    rw [get, List.getElem?_eq_none (Nat.not_lt.1 hle)]
    rfl
  have hget : s.body[i]? = some (s.get i) := by
    rw [get, List.getElem?_eq_getElem (by omega)]
    rfl
  exact List.mem_of_getElem? hget

/-- A token that is taken belongs to the text or ends it. -/
theorem mem_body_or_eq_eof {s : TokenStream} {t : Token} {n : Nat} (h : t ∈ s.take n) :
    t ∈ s.body ∨ t = s.eof := by
  obtain ⟨i, -, rfl⟩ := List.mem_map.1 h
  unfold get
  cases hi : s.body[i]? with
  | none => exact .inr rfl
  | some t => exact .inl (List.mem_of_getElem? hi)

end TokenStream

/-! ### What actions scan and are about -/

/-- Some tokens are found in a stream before an index, in order, and none of them is an error. -/
def TokenStream.Lists (s : TokenStream) (ts : List Token) (bound : Nat) : Prop :=
  ∃ is : List Nat, ts = is.map s.get ∧ is.Pairwise (· ≤ ·) ∧
    ∀ i ∈ is, i ≤ bound ∧ (s.get i).isError = false

namespace TokenStream.Lists

variable {s : TokenStream} {ts us : List Token} {n m : Nat}

theorem nil (s : TokenStream) (n : Nat) : s.Lists [] n :=
  ⟨[], rfl, .nil, List.forall_mem_nil _⟩

/-- The token at the front is listed, however often. -/
theorem current (hs : s.Settled) (h : ∀ t ∈ ts, t = s.current) (n : Nat) : s.Lists ts n := by
  refine ⟨List.replicate ts.length 0, ?_, List.pairwise_replicate.2 (.inr (le_refl 0)), ?_⟩
  · rw [List.map_replicate, get_zero]
    exact List.eq_replicate_of_mem h
  · intro i hi
    obtain rfl := List.eq_of_mem_replicate hi
    rw [get_zero]
    exact ⟨Nat.zero_le n, hs⟩

theorem append (h : s.Lists ts n) (h' : (s.drop n).Lists us m) : s.Lists (ts ++ us) (n + m) := by
  obtain ⟨is, rfl, his, hbound⟩ := h
  obtain ⟨js, rfl, hjs, hbound'⟩ := h'
  -- Behind the cut, indices are counted from the cut on.
  refine ⟨is ++ js.map (n + ·), ?_, ?_, ?_⟩
  · rw [List.map_append, List.map_map]
    congr 2
    funext i
    exact s.get_drop n i
  · rw [List.pairwise_append, List.pairwise_map]
    refine ⟨his, hjs.imp fun hij => Nat.add_le_add_left hij n, ?_⟩
    intro i hi j hj
    obtain ⟨j, -, rfl⟩ := List.mem_map.1 hj
    exact (hbound i hi).1.trans (Nat.le_add_right n j)
  · rw [List.forall_mem_append, List.forall_mem_map]
    refine ⟨fun i hi => ⟨(hbound i hi).1.trans (Nat.le_add_right n m), (hbound i hi).2⟩, ?_⟩
    intro j hj
    obtain ⟨hle, herror⟩ := hbound' j hj
    rw [get_drop] at herror
    exact ⟨Nat.add_le_add_left hle n, herror⟩

/-- Listed tokens stand behind each other. -/
theorem pairwise_position (h : s.Lists ts n) (hs : s.Ordered) :
    (ts.map Token.position).Pairwise (· ≤ ·) := by
  obtain ⟨is, rfl, his, -⟩ := h
  rw [List.map_map, List.pairwise_map]
  exact his.imp fun hij => hs.position_get_mono hij

end TokenStream.Lists

/-- Actions scan the tokens that stand between two places of a stream, the last one included, and
    what they may complain about is listed among all these, the first one included. -/
def Tracks (s : TokenStream) (as : List Action) (s' : TokenStream) : Prop :=
  ∃ n, s' = s.drop n ∧ as.filterMap Action.scanned? = s.tail.take n ∧
    s.Lists (as.filterMap Action.site?) n

namespace Tracks

variable {s s' s'' : TokenStream} {as bs : List Action}

/-- Actions that neither scan nor complain. -/
theorem silent (hscan : as.filterMap Action.scanned? = [])
    (hsite : as.filterMap Action.site? = []) : Tracks s as s :=
  ⟨0, rfl, hscan, hsite ▸ .nil s 0⟩

/-- A complaint about the token at the front. -/
theorem report (hs : s.Settled) (complaint : Complaint) :
    Tracks s [.report complaint s.current] s :=
  ⟨0, rfl, rfl, .current hs (List.forall_mem_singleton.2 rfl) 0⟩

theorem append (h : Tracks s as s') (h' : Tracks s' bs s'') : Tracks s (as ++ bs) s'' := by
  obtain ⟨n, rfl, hscan, hsite⟩ := h
  obtain ⟨m, rfl, hscan', hsite'⟩ := h'
  have htail : (s.drop n).tail = s.tail.drop n := by
    rw [TokenStream.tail_eq_drop, TokenStream.tail_eq_drop, TokenStream.drop_drop,
      TokenStream.drop_drop, Nat.add_comm]
  refine ⟨n + m, s.drop_drop n m, ?_, ?_⟩
  · rw [List.filterMap_append, hscan, hscan', TokenStream.take_add, htail]
  · rw [List.filterMap_append]
    exact hsite.append hsite'

end Tracks

/-- Passing over errors scans them, and the token behind them. -/
theorem exists_scanned_settle (s : TokenStream) :
    ∃ n, s.settle = s.drop n ∧
      (Parser.settle s).actions.filterMap Action.scanned? = s.take (n + 1) := by
  obtain ⟨body, finish⟩ := s
  induction body with
  | nil => exact ⟨0, rfl, rfl⟩
  | cons t ts ih =>
    by_cases ht : t.isError
    · -- The errors behind this one are passed over too, and the index grows by one.
      obtain ⟨n, hn, hscan⟩ := ih
      refine ⟨n + 1, ?_, ?_⟩
      · simpa [TokenStream.settle, ht, TokenStream.drop] using hn
      · rw [TokenStream.take_succ, TokenStream.tail_mk_cons, ← hscan]
        simp [Parser.settle, ht, Action.scanned?, TokenStream.current, TokenStream.eof]
    · refine ⟨0, ?_, ?_⟩
      · simp [TokenStream.settle, ht, TokenStream.drop]
      · rw [TokenStream.take_succ]
        simp [Parser.settle, ht, Action.scanned?, TokenStream.current, TokenStream.take]

theorem sites_settle (s : TokenStream) :
    (Parser.settle s).actions.filterMap Action.site? = [] := by
  rw [List.filterMap_eq_nil_iff]
  intro a ha
  obtain ⟨t, -, rfl⟩ := List.mem_map.1 ha
  rfl

/-- Taking a token scans up to the next one that counts. Complaints about the token that was taken
    may follow. -/
theorem Tracks.advance {s : TokenStream} (bs : List Action) (hs : s.Settled)
    (hscan : bs.filterMap Action.scanned? = [])
    (hsite : ∀ t ∈ bs.filterMap Action.site?, t = s.current) :
    Tracks s ((advance s).actions ++ bs) s.next := by
  obtain ⟨n, hn, hscan'⟩ := exists_scanned_settle s.tail
  refine ⟨n + 1, ?_, ?_, ?_⟩
  · show s.tail.settle = _
    rw [hn, TokenStream.tail_eq_drop, TokenStream.drop_drop, Nat.add_comm]
  · rw [List.filterMap_append, hscan, List.append_nil]
    exact hscan'
  · rw [List.filterMap_append]
    refine .current hs ?_ _
    show ∀ t ∈ (Parser.settle s.tail).actions.filterMap Action.site? ++ _, _
    rw [sites_settle]
    exact hsite

/-- Going on to the next token tracks the stream. -/
theorem Tracks.advance_only {s : TokenStream} (hs : s.Settled) :
    Tracks s (Parser.advance s).actions s.next := by
  simpa using Tracks.advance [] hs rfl (List.forall_mem_nil _)

/-- Reading scans token after token, and is never about a token before one that it was about. -/
theorem Reads.tracks {part : Part} {s s' : TokenStream} {as : List Action}
    (h : Reads part s as s') (hs : s.Settled) : Tracks s as s' := by
  induction h with
  | refused => exact .report hs _
  | @missing _ _ s _ =>
    -- The complaint comes after the next token is scanned, but is about the one that was taken.
    have hfirst : Tracks s [.enter] s := .silent rfl rfl
    exact hfirst.append (.advance _ hs rfl (List.forall_mem_singleton.2 rfl))
  | @begun _ _ s _ _ _ _ h₁ _ ih₁ ih₂ =>
    have hfirst : Tracks s [.enter] s := .silent rfl rfl
    exact ((hfirst.append (ih₁ hs)).append (ih₂ (h₁.settled hs))).append (.silent rfl rfl)
  | number _ =>
    -- A literal for which there is no room is complained about in the same way.
    exact .advance _ hs rfl (List.forall_mem_singleton.2 rfl)
  | @negate _ s _ _ _ _ ih =>
    have hsign : Tracks s.next [.apply .unary s.current] s.next := .silent rfl rfl
    have hoperand := hsign.append (ih s.settled_next)
    exact ((Tracks.advance_only hs).append hoperand).append (.silent rfl rfl)
  | @closed _ s _ _ _ h₁ _ ih =>
    have hopen : Tracks s.next [.apply .grouping s.current] s.next := .silent rfl rfl
    have hbody := hopen.append (ih s.settled_next)
    exact ((Tracks.advance_only hs).append hbody).append (.advance_only (h₁.settled s.settled_next))
  | @unclosed _ s _ _ _ h₁ _ ih =>
    have hopen : Tracks s.next [.apply .grouping s.current] s.next := .silent rfl rfl
    have hbody := hopen.append (ih s.settled_next)
    exact ((Tracks.advance_only hs).append hbody).append (.report (h₁.settled s.settled_next) _)
  | done _ => exact .silent rfl rfl
  | @more _ _ _ s _ _ _ _ _ _ h₁ _ ih₁ ih₂ =>
    have hextend : Tracks s [.extend s.current] s := .silent rfl rfl
    have hjoin : Tracks s.next [.apply .binary s.current] s.next := .silent rfl rfl
    have hright := hjoin.append (ih₁ s.settled_next)
    exact (((hextend.append (.advance_only hs)).append hright).append (.silent rfl rfl)).append
      (ih₂ (h₁.settled s.settled_next))

/-! ### Reading a whole stream -/

theorem report_notMem_settle (s : TokenStream) (complaint : Complaint) (t : Token) :
    .report complaint t ∉ (Parser.settle s).actions := by
  intro h
  obtain ⟨u, -, hu⟩ := List.mem_map.1 h
  cases hu

theorem report_notMem_advance (s : TokenStream) (complaint : Complaint) (t : Token) :
    .report complaint t ∉ (advance s).actions :=
  List.not_mem_cons_of_ne_of_not_mem nofun (report_notMem_settle s.tail complaint t)

/-- What reading a part of an expression can report. -/
theorem Reads.complaint_mem {part : Part} {s s' : TokenStream} {as : List Action}
    {complaint : Complaint} {t : Token} (h : Reads part s as s')
    (hr : .report complaint t ∈ as) :
    complaint ∈ [.nestedTooDeeply, .expectExpression, .expectClosing] := by
  induction h with
  | refused => simp_all
  | missing _ => simp_all [report_notMem_advance]
  | begun _ _ ih₁ ih₂ =>
    simp only [List.mem_append, List.mem_cons, reduceCtorEq, false_or, List.not_mem_nil,
      or_false] at hr
    exact hr.elim ih₁ ih₂
  | number _ => simp [report_notMem_advance] at hr
  | negate _ _ ih => exact ih (by simpa [report_notMem_advance] using hr)
  | closed _ _ _ ih => exact ih (by simpa [report_notMem_advance] using hr)
  | unclosed _ _ _ ih =>
    simp only [List.mem_append, List.mem_cons, report_notMem_advance, reduceCtorEq, false_or,
      List.not_mem_nil, or_false, Action.report.injEq] at hr
    rcases hr with hr | ⟨rfl, -⟩
    · exact ih hr
    · decide
  | done _ => cases hr
  | more _ _ _ _ ih₁ ih₂ =>
    simp only [List.mem_append, List.mem_cons, report_notMem_advance, reduceCtorEq, false_or,
      List.not_mem_nil, or_false] at hr
    exact hr.elim ih₁ ih₂

/-- What reading a whole stream can report. -/
theorem complaint_mem_of_report_parse {s : TokenStream} {complaint : Complaint} {t : Token}
    (h : .report complaint t ∈ parse s) :
    complaint ∈ [.nestedTooDeeply, .expectExpression, .expectClosing, .expectEnd] := by
  obtain ⟨as, s', hreads, hparse⟩ := exists_reads_parse s
  rw [hparse] at h
  simp only [List.mem_append, report_notMem_settle, false_or, List.mem_singleton, reduceCtorEq,
    or_false] at h
  rcases h with h | h
  · exact List.mem_append_left [.expectEnd] (hreads.complaint_mem h)
  · by_cases heof : s'.current.kind = .eof
    · rw [Parser.expect_of_eq heof] at h
      exact absurd h (report_notMem_advance _ _ _)
    · rw [Parser.expect_of_ne heof] at h
      obtain ⟨rfl, -⟩ : complaint = .expectEnd ∧ t = s'.current := by simpa using h
      decide

/-- Inside an expression, nothing is said about the end of the text. -/
theorem Reads.expectEnd_notMem {part : Part} {s s' : TokenStream} {as : List Action}
    (h : Reads part s as s') (t : Token) : .report .expectEnd t ∉ as :=
  fun hr => absurd (h.complaint_mem hr) (by decide)

/-- Actions scan the first tokens of a stream up to an index, and what they may complain about is
    listed among these. -/
structure Covers (s : TokenStream) (as : List Action) (n : Nat) : Prop where
  scanned : as.filterMap Action.scanned? = s.take (n + 1)
  sites : s.Lists (as.filterMap Action.site?) n

/-- Actions that track the rest of a stream cover more of it. -/
theorem Covers.append {s s' : TokenStream} {as bs : List Action} {n : Nat} (h : Covers s as n)
    (h' : Tracks (s.drop n) bs s') : ∃ m, s' = s.drop (n + m) ∧ Covers s (as ++ bs) (n + m) := by
  obtain ⟨m, rfl, hscan, hsite⟩ := h'
  refine ⟨m, s.drop_drop n m, ?_, ?_⟩
  · rw [List.filterMap_append, h.scanned, hscan, TokenStream.tail_eq_drop, TokenStream.drop_drop,
      ← TokenStream.take_add, Nat.add_right_comm]
  · rw [List.filterMap_append]
    exact h.sites.append hsite

/-- A report about the token in front covers no more. -/
theorem Covers.report {s : TokenStream} {as : List Action} {n : Nat} (h : Covers s as n)
    (hs : (s.drop n).Settled) (complaint : Complaint) :
    Covers s (as ++ [.report complaint (s.get n)]) n := by
  refine ⟨?_, ?_⟩
  · rw [List.filterMap_append, h.scanned]
    exact List.append_nil _
  · rw [List.filterMap_append]
    refine h.sites.append (.current hs ?_ 0)
    exact List.forall_mem_singleton.2 (s.current_drop n).symm

/-- Passing over the errors at the front covers them, and the token behind them. -/
theorem exists_covers_settle (s : TokenStream) :
    ∃ n, s.settle = s.drop n ∧ Covers s (Parser.settle s).actions n := by
  obtain ⟨n, hn, hscan⟩ := exists_scanned_settle s
  exact ⟨n, hn, hscan, (sites_settle s).symm ▸ .nil s n⟩

/-- How reading ends at an index: it has come to the end of the text, or the last thing that it does
    is to miss it. -/
inductive Ends (s : TokenStream) (n : Nat) : List Action → Prop where
  | finished {as : List Action} {i : Nat} :
      i ≤ n → (s.get i).kind = .eof → (∀ t, .report .expectEnd t ∉ as) → Ends s n as
  | stopped {as : List Action} :
      (s.get n).kind ≠ .eof → Ends s n (as ++ [.report .expectEnd (s.get n)])

/-- Reading a whole stream covers it up to some index and ends there. -/
theorem exists_covers_parse (s : TokenStream) :
    ∃ as n, parse s = as ++ [.emit .ret] ∧ Covers s as n ∧ Ends s n as := by
  obtain ⟨as, s', hreads, hparse⟩ := exists_reads_parse s
  obtain ⟨k, hk, hfront⟩ := exists_covers_settle s
  obtain ⟨m, rfl, hcovers⟩ := hfront.append (hk ▸ hreads.tracks s.settled_settle)
  have hsettled := hreads.settled s.settled_settle
  have hnone : ∀ t, .report .expectEnd t ∉ (Parser.settle s).actions ++ as := by
    intro t
    rw [List.mem_append, not_or]
    exact ⟨report_notMem_settle s _ t, hreads.expectEnd_notMem t⟩
  generalize k + m = n at *
  rw [hparse]
  by_cases heof : (s.drop n).current.kind = .eof
  · -- The end of the text is taken, and scanned once more.
    rw [Parser.expect_of_eq heof]
    obtain ⟨l, -, hall⟩ := hcovers.append (.advance_only hsettled)
    rw [TokenStream.current_drop] at heof
    refine ⟨_, n + l, rfl, hall, .finished (Nat.le_add_right n l) heof ?_⟩
    intro t
    rw [List.mem_append, not_or]
    exact ⟨hnone t, report_notMem_advance _ _ t⟩
  · rw [Parser.expect_of_ne heof]
    rw [TokenStream.current_drop] at heof ⊢
    exact ⟨_, n, rfl, hcovers.report hsettled .expectEnd, .stopped heof⟩

/-! ### The log and the diagnostics -/

/-- The token that an event is about. -/
def Event.token? : Event → Option Token
  | .token t => some t
  | .compiled .. | .compileFailed _ | .step .. | .runningFile .. => none

/-- The tokens that the log shows. -/
def Compilation.loggedTokens (c : Compilation) : List Token := c.events.filterMap Event.token?

/-- The tokens in the log are those that were scanned. -/
theorem Compilation.loggedTokens_eq (c : Compilation) : c.loggedTokens = c.scanned := by
  simp [loggedTokens, events, List.filterMap_append, List.filterMap_map, Function.comp_def,
    Event.token?]

/-- The log and the diagnostics of a compilation follow a token stream: the tokens of the log are
    the first ones of the stream; the errors of the text are those among them, in order; every
    complaint stands at one that is no error; neither go back in the text; and the log stops before
    the end of the text if and only if the last diagnostic misses it, at the last token of the
    log. -/
structure Compilation.Follows (c : Compilation) (s : TokenStream) : Prop where
  logged : ∃ n, c.loggedTokens = s.take n
  flaws : flawsOf c.diagnostics = (c.loggedTokens.filter (·.isError)).map Token.flaw
  complaints : ∀ r ∈ complaintsOf c.diagnostics,
    ∃ t ∈ c.loggedTokens, t.isError = false ∧ r.2 = t.position
  flaws_increasing : ((flawsOf c.diagnostics).map Prod.snd).Pairwise (· < ·)
  complaints_nondecreasing : ((complaintsOf c.diagnostics).map Prod.snd).Pairwise (· ≤ ·)
  stopped : (∀ t ∈ c.loggedTokens, t.kind ≠ .eof) ↔
    ∃ d, c.diagnostics.getLast? = some d ∧ d.cause.message = Complaint.expectEnd.message
  stopped_at : ∀ d, c.diagnostics.getLast? = some d →
    d.cause.message = Complaint.expectEnd.message →
      ∃ t, c.loggedTokens.getLast? = some t ∧ d.position = t.position

namespace Covers

variable {s : TokenStream} {as : List Action} {n : Nat}

/-- The errors among covered tokens are errors of the text, and stand behind each other. -/
theorem scannedFlaws_eq (h : Covers s as n) :
    scannedFlaws as = (s.body.take (n + 1)).filter (·.isError) := by
  rw [← filter_isError_scanned, h.scanned, s.filter_isError_take]

/-- A scanned error belongs to the text. -/
theorem mem_body_of_mem_scannedFlaws (h : Covers s as n) {t : Token} (ht : t ∈ scannedFlaws as) :
    t ∈ s.body := by
  rw [h.scannedFlaws_eq] at ht
  exact List.mem_of_mem_take (List.mem_of_mem_filter ht)

/-- Errors are scanned in the order of their positions. -/
theorem pairwise_scannedFlaws (h : Covers s as n) (hs : s.Ordered) :
    ((scannedFlaws as).map Token.position).Pairwise (· < ·) := by
  have hsub : (scannedFlaws as).Sublist s.toList := by
    rw [h.scannedFlaws_eq]
    exact (List.filter_sublist.trans (List.take_sublist _ _)).trans (List.sublist_append_left _ _)
  exact hs.sublist (hsub.map _)

/-- What a complaint is about is covered, and no error. -/
theorem mem_take_of_mem_sites (h : Covers s as n) {t : Token}
    (ht : t ∈ as.filterMap Action.site?) : t ∈ s.take (n + 1) ∧ t.isError = false := by
  obtain ⟨is, heq, -, hbound⟩ := h.sites
  rw [heq] at ht
  obtain ⟨i, hi, rfl⟩ := List.mem_map.1 ht
  obtain ⟨hle, herror⟩ := hbound i hi
  exact ⟨List.mem_map_of_mem (List.mem_range.2 (Nat.lt_succ_of_le hle)), herror⟩

/-- Whatever the chunk holds, the last thing that is said about a text tells whether its end was
    covered. -/
theorem stopped_or_finished {source : String} (h : Covers (scan source) as n)
    (hends : Ends (scan source) n as) (a : Assembly) :
    (∀ t ∈ (scan source).take (n + 1), t.kind ≠ .eof) ∧
        (a.remarksAll as).getLast?
          = some ⟨.grammatical .expectEnd, ((scan source).get n).position⟩ ∨
      (∃ t ∈ (scan source).take (n + 1), t.kind = .eof) ∧
        ∀ d ∈ a.remarksAll as, d.cause.message ≠ Complaint.expectEnd.message := by
  cases hends with
  | finished hi heof hnone =>
    refine .inr ⟨⟨_, List.mem_map_of_mem (List.mem_range.2 (Nat.lt_succ_of_le hi)), heof⟩, ?_⟩
    intro d hd hm
    -- Neither an error of the text nor any other complaint has this wording.
    have hcause := Assembly.cause_eq_of_message
      (fun t ht => h.mem_body_of_mem_scannedFlaws ht) hd hm
    obtain ⟨t, ht, -⟩ := Assembly.exists_report_of_cause hd hcause (by decide)
    exact hnone t ht
  | @stopped as hne =>
    refine .inl ⟨?_, ?_⟩
    · intro t ht
      obtain ⟨i, hi, rfl⟩ := List.mem_map.1 ht
      have hle : i ≤ n := Nat.le_of_lt_succ (List.mem_range.1 hi)
      exact kind_ne_eof_of_mem_scan (TokenStream.get_mem_body hne hle)
    · rw [Assembly.remarksAll_append]
      exact List.getLast?_concat

end Covers

/-- What compiling says is what is said about the actions of reading. Writing the return at the end
    adds nothing. -/
theorem diagnostics_compileInto {source : String} {as : List Action}
    (h : parse (scan source) = as ++ [.emit .ret]) (chunk : Chunk) :
    (compileInto chunk source).diagnostics = Assembly.remarksAll { chunk } as := by
  show (Assembly.performAll { chunk } (parse (scan source))).diagnostics.toList = _
  rw [Assembly.performAll_diagnostics, h, Assembly.remarksAll_append]
  exact List.append_nil _

/-- What compiling can say: an error of the text is repeated, and every complaint stands at a token
    or at the end of the text. -/
theorem exists_token_of_mem_diagnostics {chunk : Chunk} {source : String} {d : Diagnostic}
    (hd : d ∈ (compileInto chunk source).diagnostics) :
    (∃ t ∈ (scan source).body, t.isError = true ∧ d = ⟨.lexical t.lexeme, t.position⟩) ∨
      ∃ complaint, ∃ t ∈ (scan source).toList, d = ⟨.grammatical complaint, t.position⟩ := by
  obtain ⟨as, n, hparse, hcovers, -⟩ := exists_covers_parse (scan source)
  rw [diagnostics_compileInto hparse] at hd
  obtain ⟨x, hx, b, hb⟩ := Assembly.exists_mem_remarks hd
  rcases Assembly.mem_remarks hb with ⟨t, rfl, herror, rfl⟩ | ⟨complaint, t, hsite, rfl, -⟩
  · have hbody := hcovers.mem_body_of_mem_scannedFlaws (mem_scannedFlaws hx herror)
    exact .inl ⟨t, hbody, herror, rfl⟩
  · have hcovered := hcovers.mem_take_of_mem_sites (List.mem_filterMap.2 ⟨x, hx, hsite⟩)
    refine .inr ⟨complaint, t, ?_, rfl⟩
    rw [TokenStream.toList, List.mem_append, List.mem_singleton]
    exact TokenStream.mem_body_or_eq_eof hcovered.1

/-- Of what compiling says, the wording tells which complaint it is. -/
theorem cause_eq_of_mem_diagnostics {chunk : Chunk} {source : String} {d : Diagnostic}
    {complaint : Complaint} (hd : d ∈ (compileInto chunk source).diagnostics)
    (hm : d.cause.message = complaint.message) : d.cause = .grammatical complaint := by
  obtain ⟨as, n, hparse, hcovers, -⟩ := exists_covers_parse (scan source)
  rw [diagnostics_compileInto hparse] at hd
  exact Assembly.cause_eq_of_message (fun t ht => hcovers.mem_body_of_mem_scannedFlaws ht) hd hm

/-- **The log and the diagnostics follow the tokens.** Whatever the source text is, and whatever the
    chunk holds already. -/
theorem compileInto_follows (chunk : Chunk) (source : String) :
    (compileInto chunk source).Follows (scan source) := by
  obtain ⟨as, n, hparse, hcovers, hends⟩ := exists_covers_parse (scan source)
  have hdiagnostics := diagnostics_compileInto hparse chunk
  have hlogged : (compileInto chunk source).loggedTokens = (scan source).take (n + 1) := by
    rw [Compilation.loggedTokens_eq, ← hcovers.scanned]
    show (parse (scan source)).filterMap Action.scanned? = _
    rw [hparse, List.filterMap_append]
    exact List.append_nil _
  have hflaws : flawsOf (compileInto chunk source).diagnostics
      = (scannedFlaws as).map Token.flaw := by
    rw [hdiagnostics, Assembly.flawsOf_remarksAll]
  constructor
  case logged => exact ⟨n + 1, hlogged⟩
  case flaws => rw [hflaws, hlogged, ← hcovers.scanned, filter_isError_scanned]
  case complaints =>
    intro r hr
    rw [hdiagnostics] at hr
    obtain ⟨t, ht, hpos⟩ := Assembly.exists_site_of_mem_remarksAll (List.mem_map_of_mem hr)
    obtain ⟨hmem, herror⟩ := hcovers.mem_take_of_mem_sites ht
    exact ⟨t, hlogged ▸ hmem, herror, hpos.symm⟩
  case flaws_increasing =>
    rw [hflaws, List.map_map]
    exact hcovers.pairwise_scannedFlaws (TokenStream.ordered_scan source)
  case complaints_nondecreasing =>
    rw [hdiagnostics]
    exact Assembly.pairwise_complaintsOf _
      (hcovers.sites.pairwise_position (TokenStream.ordered_scan source))
  case stopped =>
    rw [hlogged, hdiagnostics]
    rcases hcovers.stopped_or_finished hends { chunk } with ⟨hopen, hlast⟩ | ⟨⟨t, ht, heof⟩, hnone⟩
    · exact iff_of_true hopen ⟨_, hlast, rfl⟩
    · refine iff_of_false (fun hopen => hopen t ht heof) ?_
      rintro ⟨d, hd, hm⟩
      exact hnone d (List.mem_of_getLast? hd) hm
  case stopped_at =>
    rw [hlogged, hdiagnostics]
    intro d hd hm
    rcases hcovers.stopped_or_finished hends { chunk } with ⟨-, hlast⟩ | ⟨-, hnone⟩
    · obtain rfl := Option.some.inj (hlast.symm.trans hd)
      exact ⟨_, (scan source).getLast?_take n, rfl⟩
    · exact absurd hm (hnone d (List.mem_of_getLast? hd))

end Abacus
