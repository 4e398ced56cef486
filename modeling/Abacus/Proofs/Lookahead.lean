import Abacus.Action

namespace Abacus

open Abacus.Parser (advance)

/-!
# What the parser sees and does when it takes a token

The parser sees a stream without its errors, which it passes over. What happens is told by a list of
actions, of which three views matter.

* `TokenStream.tokens`, `TokenStream.flaws` — the tokens of a stream that count, and the others.
* `TokenStream.next` — the stream that is left when the token at the front is taken.
* `scannedFlaws` — the errors that some actions scan.
* `firstReport` — the first complaint that some actions make.
* `kept` — the actions that say what was read and written.
* `Action.InnerTo ts` — the action may happen inside an expression over the tokens `ts`.
-/

/-! ### What a stream shows to the parser -/

namespace TokenStream

/-- The tokens of a stream that are no errors. -/
def tokens (s : TokenStream) : List Token := s.body.filter (!·.isError)

/-- The errors of a stream. -/
def flaws (s : TokenStream) : List Token := s.body.filter (·.isError)

/-- The token at the front of the stream is no error. -/
def Settled (s : TokenStream) : Prop := s.current.isError = false

/-- The stream without the errors at its front. -/
def settle (s : TokenStream) : TokenStream := { s with body := s.body.dropWhile Token.isError }

/-- The stream without its front token and the errors after it. -/
def next (s : TokenStream) : TokenStream := s.tail.settle

/-- Settling passes over errors only. -/
theorem tokens_settle (s : TokenStream) : s.settle.tokens = s.tokens := by
  obtain ⟨body, finish⟩ := s
  induction body with
  | nil => rfl
  | cons t ts ih =>
    by_cases ht : t.isError
    · simpa [settle, tokens, ht] using ih
    · simp [settle, ht]

/-- A settled stream does not begin with an error. -/
theorem settled_settle (s : TokenStream) : s.settle.Settled := by
  obtain ⟨body, finish⟩ := s
  induction body with
  | nil => rfl
  | cons t ts ih =>
    by_cases ht : t.isError
    · simpa [settle, ht] using ih
    · simp [settle, ht, Settled, current]

/-- Neither does what follows a token. -/
theorem settled_next (s : TokenStream) : s.next.Settled := settled_settle _

/-- The front of a settled stream is the first token that counts, or the end of the text. -/
theorem Settled.current_eq {s : TokenStream} (h : s.Settled) :
    s.current = s.tokens.headD s.eof := by
  unfold Settled at h
  unfold current tokens at *
  cases hb : s.body with
  | nil => rfl
  | cons t ts =>
    rw [hb, List.headD_cons] at h
    simp [h]

/-- Taking the front token off takes the first one that counts. -/
theorem Settled.tokens_next {s : TokenStream} (h : s.Settled) : s.next.tokens = s.tokens.tail := by
  unfold Settled current at h
  rw [next, tokens_settle]
  unfold tokens tail
  cases hb : s.body with
  | nil => rfl
  | cons t ts =>
    rw [hb, List.headD_cons] at h
    simp [h]

/-- What follows the token at the front is an end of the tokens. -/
theorem Settled.suffix_next {s : TokenStream} (h : s.Settled) : s.next.tokens <:+ s.tokens := by
  rw [h.tokens_next]
  exact List.tail_suffix _

/-- Taking the front token off leaves all errors. -/
theorem Settled.flaws_tail {s : TokenStream} (h : s.Settled) : s.tail.flaws = s.flaws := by
  unfold Settled current at h
  unfold flaws tail
  cases hb : s.body with
  | nil => rfl
  | cons t ts =>
    rw [hb, List.headD_cons] at h
    simp [h]

/-- A settled stream is at the end of the text, or shows its first token that counts. -/
theorem Settled.tokens_eq {s : TokenStream} (h : s.Settled) :
    s.tokens = [] ∧ s.current = s.eof ∨ s.tokens = s.current :: s.next.tokens := by
  rw [h.tokens_next, h.current_eq]
  cases s.tokens with
  | nil => exact .inl ⟨rfl, rfl⟩
  | cons t ts => exact .inr rfl

/-- A token that is not the end of the text is the first one that counts. -/
theorem Settled.tokens_of_ne {s : TokenStream} (h : s.Settled) (hk : s.current.kind ≠ .eof) :
    s.tokens = s.current :: s.next.tokens := by
  rcases h.tokens_eq with ⟨-, he⟩ | ht
  · exact absurd (congrArg Token.kind he) hk
  · exact ht

/-- A settled stream without a token that counts is at the end of the text. -/
theorem Settled.body_eq_nil {s : TokenStream} (h : s.Settled) (ht : s.tokens = []) :
    s.body = [] := by
  unfold Settled current at h
  unfold tokens at ht
  cases hb : s.body with
  | nil => rfl
  | cons t ts =>
    rw [hb, List.headD_cons] at h
    simp [hb, h] at ht

/-- A stream has no errors exactly if none of its tokens is one. -/
theorem flaws_eq_nil_iff (s : TokenStream) : s.flaws = [] ↔ ∀ t ∈ s.body, t.isError = false := by
  simp [flaws]

/-- Without errors, every token counts. -/
theorem tokens_eq_body {s : TokenStream} (h : s.flaws = []) : s.tokens = s.body := by
  rw [flaws_eq_nil_iff] at h
  exact List.filter_eq_self.2 fun t ht => by simp [h t ht]

end TokenStream

@[simp] theorem Parser.advance_rest (s : TokenStream) : (advance s).rest = s.next := rfl

/-- An expected token is taken. -/
theorem Parser.expect_of_eq {kind : Kind} {complaint : Complaint} {s : TokenStream}
    (h : s.current.kind = kind) : expect kind complaint s = advance s := by
  rw [expect, look_apply, if_pos h]

/-- Another token stays, and is complained about. -/
theorem Parser.expect_of_ne {kind : Kind} {complaint : Complaint} {s : TokenStream}
    (h : s.current.kind ≠ kind) :
    expect kind complaint s = note [.report complaint s.current] s := by
  rw [expect, look_apply, if_neg h]

/-! ### Errors that are scanned -/

/-- The errors that an action scans. -/
def Action.flaws : Action → List Token
  | .scan t => [t].filter (·.isError)
  | .consume _ | .enter | .leave | .extend _ | .apply _ _ => []
  | .literal _ | .emit _ | .merge | .report _ _ => []

/-- The errors that some actions scan. -/
def scannedFlaws (as : List Action) : List Token := as.flatMap Action.flaws

@[simp] theorem scannedFlaws_nil : scannedFlaws [] = [] := rfl

@[simp] theorem scannedFlaws_cons (a : Action) (as : List Action) :
    scannedFlaws (a :: as) = a.flaws ++ scannedFlaws as := rfl

@[simp] theorem scannedFlaws_append (as bs : List Action) :
    scannedFlaws (as ++ bs) = scannedFlaws as ++ scannedFlaws bs :=
  List.flatMap_append

/-- The errors among scanned tokens are the tokens that are errors. -/
theorem scannedFlaws_map_scan (ts : List Token) :
    scannedFlaws (ts.map .scan) = ts.filter (·.isError) := by
  induction ts with
  | nil => rfl
  | cons t ts ih =>
    rw [List.map_cons, scannedFlaws_cons, ih, Action.flaws, ← List.filter_append]
    rfl

/-- Passing over the errors at the front scans them, and one token that counts. -/
theorem scannedFlaws_settle (s : TokenStream) :
    scannedFlaws (Parser.settle s).actions ++ s.settle.flaws = s.flaws := by
  -- The token that is settled on is scanned too, but it is no error.
  have hs : s.settle.current.isError = false := s.settled_settle
  have hscan : scannedFlaws (Parser.settle s).actions
      = (s.body.takeWhile Token.isError).filter (·.isError) := by
    show scannedFlaws ((_ ++ [s.settle.current]).map .scan) = _
    rw [scannedFlaws_map_scan, List.filter_append, List.filter_cons_of_neg (by simp [hs]),
      List.filter_nil, List.append_nil]
  rw [hscan]
  show List.filter _ _ ++ List.filter _ (s.body.dropWhile Token.isError) = _
  rw [← List.filter_append, List.takeWhile_append_dropWhile]
  rfl

/-- Going on to the next token scans the errors between the two. -/
theorem scannedFlaws_advance {s : TokenStream} (h : s.Settled) :
    scannedFlaws (advance s).actions ++ s.next.flaws = s.flaws := by
  rw [← h.flaws_tail, ← scannedFlaws_settle s.tail]
  rfl

/-! ### Reports -/

/-- The complaint that an action makes. -/
def Action.report? : Action → Option (Complaint × Token)
  | .report complaint t => some (complaint, t)
  | .scan _ | .consume _ | .enter | .leave | .extend _ | .apply _ _ => none
  | .literal _ | .emit _ | .merge => none

/-- The first complaint that some actions make. -/
def firstReport (as : List Action) : Option (Complaint × Token) := as.findSome? Action.report?

@[simp] theorem firstReport_nil : firstReport [] = none := rfl

@[simp] theorem firstReport_cons (a : Action) (as : List Action) :
    firstReport (a :: as) = a.report?.or (firstReport as) := by
  rw [firstReport, List.findSome?_cons]
  cases a.report? <;> rfl

@[simp] theorem firstReport_append (as bs : List Action) :
    firstReport (as ++ bs) = (firstReport as).or (firstReport bs) :=
  List.findSome?_append

@[simp] theorem firstReport_settle (s : TokenStream) :
    firstReport (Parser.settle s).actions = none := by
  unfold firstReport Parser.settle
  rw [List.findSome?_eq_none_iff]
  intro a ha
  obtain ⟨t, -, rfl⟩ := List.mem_map.1 ha
  rfl

@[simp] theorem firstReport_advance (s : TokenStream) : firstReport (advance s).actions = none :=
  firstReport_settle s.tail

/-! ### What was read and written -/

/-- Does an action tell what was read, written or found wrong? -/
def Action.isKept : Action → Bool
  | .consume _ | .literal _ | .emit _ | .merge | .report _ _ => true
  | .scan _ | .enter | .leave | .extend _ | .apply _ _ => false

/-- The actions that tell what was read, written or found wrong. -/
def kept (as : List Action) : List Action := as.filter Action.isKept

@[simp] theorem kept_nil : kept [] = [] := rfl

@[simp] theorem kept_cons (a : Action) (as : List Action) :
    kept (a :: as) = if a.isKept then a :: kept as else kept as :=
  List.filter_cons

@[simp] theorem kept_append (as bs : List Action) : kept (as ++ bs) = kept as ++ kept bs :=
  List.filter_append ..

@[simp] theorem kept_settle (s : TokenStream) : kept (Parser.settle s).actions = [] := by
  unfold kept Parser.settle
  rw [List.filter_eq_nil_iff]
  intro a ha
  obtain ⟨t, -, rfl⟩ := List.mem_map.1 ha
  exact Bool.false_ne_true

/-- Going on keeps that the token at the front was taken. -/
@[simp] theorem kept_advance (s : TokenStream) :
    kept (advance s).actions = [.consume s.current] :=
  congrArg (Action.consume s.current :: ·) (kept_settle s.tail)

/-! ### What happens inside an expression -/

/-- An action inside an expression over some tokens: of these only numbers become constants, and
    neither a constant nor a return is written as an instruction of one byte. -/
def Action.InnerTo (ts : List Token) : Action → Prop
  | .literal t => t ∈ ts ∧ t.kind = .number
  | .emit opcode => opcode ≠ .constant ∧ opcode ≠ .ret
  | .scan _ | .consume _ | .enter | .leave | .extend _ | .apply _ _ => True
  | .merge | .report _ _ => True

/-- What happens inside an expression over the last tokens happens inside the whole. -/
theorem innerTo_of_suffix {ts us : List Token} {as : List Action} (h : ∀ a ∈ as, a.InnerTo ts)
    (hsuf : ts <:+ us) : ∀ a ∈ as, a.InnerTo us := by
  intro a ha
  have hi := h a ha
  cases a with
  | literal t => exact ⟨hsuf.subset hi.1, hi.2⟩
  | _ => exact hi

theorem innerTo_settle (s : TokenStream) (ts : List Token) :
    ∀ a ∈ (Parser.settle s).actions, a.InnerTo ts := by
  intro a ha
  obtain ⟨t, -, rfl⟩ := List.mem_map.1 ha
  trivial

theorem innerTo_advance (s : TokenStream) (ts : List Token) :
    ∀ a ∈ (advance s).actions, a.InnerTo ts :=
  List.forall_mem_cons.2 ⟨trivial, innerTo_settle s.tail ts⟩

theorem innerTo_expect (kind : Kind) (complaint : Complaint) (s : TokenStream) (ts : List Token) :
    ∀ a ∈ (Parser.expect kind complaint s).actions, a.InnerTo ts := by
  by_cases h : s.current.kind = kind
  · rw [Parser.expect_of_eq h]
    exact innerTo_advance s ts
  · rw [Parser.expect_of_ne h]
    exact List.forall_mem_singleton.2 trivial

end Abacus
