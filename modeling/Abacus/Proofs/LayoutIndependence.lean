import Mathlib.Data.List.Forall2
import Abacus.Proofs.FirstComplaint

namespace Abacus

open Abacus.Parser (advance)

/-!
# Layout does not show in the code

Two source texts whose tokens are spelled alike, apart from errors and wherever the tokens stand,
are compiled by the same actions. So they come to the same code, and to the same complaints about
corresponding tokens.

* `TokenStream.Alike R s r` — the parser sees tokens in `s` and `r` that are related by `R`.
* `Action.Alike`, `AlikeRuns` — actions about related tokens, also between scans.
* `Reads.alike` — reading a part from two such streams takes such actions.
* `Assembly.Alike.performAll` — which write the same code.
* `compileInto_of_spelling_eq` — what this means for source texts.
-/

/-! ### What the parser sees -/

namespace TokenStream

/-- The tokens of a stream that the parser sees, the end of the text included. -/
def visible (s : TokenStream) : List Token := s.toList.filter (!·.isError)

/-- The stream without its errors. -/
def purged (s : TokenStream) : TokenStream := { s with body := s.tokens }

/-- The stream without its errors shows the visible tokens in order, and then the last of them for
    ever. -/
theorem getElem?_visible (s : TokenStream) (n : Nat) :
    s.visible[min n s.tokens.length]? = some (s.purged.get n) := by
  rw [visible, filter_toList]
  exact s.purged.getElem?_toList n

theorem length_visible (s : TokenStream) : s.visible.length = s.tokens.length + 1 := by
  rw [visible, filter_toList, List.length_append, List.length_singleton]

/-- Passing over errors does not change what is left without errors. -/
theorem purged_settle (s : TokenStream) : s.settle.purged = s.purged :=
  congrArg (TokenStream.mk · s.finish) s.tokens_settle

/-- Without its errors, a settled stream begins with the same token. -/
theorem Settled.current_purged {s : TokenStream} (h : s.Settled) : s.purged.current = s.current :=
  h.current_eq.symm

/-- Going on commutes with leaving the errors out. -/
theorem Settled.purged_next {s : TokenStream} (h : s.Settled) : s.next.purged = s.purged.tail :=
  congrArg (TokenStream.mk · s.finish) h.tokens_next

variable {R : Token → Token → Prop} {s r : TokenStream}

/-- Two streams are at tokens that count, and all that the parser can see of them from here on is
    related, token by token. -/
structure Alike (R : Token → Token → Prop) (s r : TokenStream) : Prop where
  left : s.Settled
  right : r.Settled
  tokens : ∀ n, R (s.purged.get n) (r.purged.get n)

/-- Streams that are alike have tokens in front that correspond. -/
theorem Alike.current (h : Alike R s r) : R s.current r.current := by
  have h₀ := h.tokens 0
  rwa [get_zero, get_zero, h.left.current_purged, h.right.current_purged] at h₀

theorem Alike.next (h : Alike R s r) : Alike R s.next r.next := by
  refine ⟨s.settled_next, r.settled_next, ?_⟩
  intro n
  rw [h.left.purged_next, h.right.purged_next, ← get_succ, ← get_succ]
  exact h.tokens (n + 1)

/-- Streams whose tokens correspond without the errors are alike once errors are passed over. -/
theorem alike_settle (h : ∀ n, R (s.purged.get n) (r.purged.get n)) :
    Alike R s.settle r.settle := by
  refine ⟨s.settled_settle, r.settled_settle, ?_⟩
  rw [purged_settle, purged_settle]
  exact h

end TokenStream

/-! ### Actions in step -/

section

variable (R : Token → Token → Prop)

/-- The same action, about related tokens. Scans are no part of this. -/
inductive Action.Alike : Action → Action → Prop where
  | consume {t u : Token} : R t u → Alike (.consume t) (.consume u)
  | enter : Alike .enter .enter
  | leave : Alike .leave .leave
  | extend {t u : Token} : R t u → Alike (.extend t) (.extend u)
  | apply {role : Role} {t u : Token} : R t u → Alike (.apply role t) (.apply role u)
  | literal {t u : Token} : R t u → Alike (.literal t) (.literal u)
  | emit {opcode : Opcode} : Alike (.emit opcode) (.emit opcode)
  | merge : Alike .merge .merge
  | report {complaint : Complaint} {t u : Token} :
      R t u → Alike (.report complaint t) (.report complaint u)

/-- The same actions, about related tokens, with any scans in between. -/
inductive AlikeRuns : List Action → List Action → Prop where
  | nil : AlikeRuns [] []
  | scanLeft {t : Token} {as bs : List Action} : AlikeRuns as bs → AlikeRuns (.scan t :: as) bs
  | scanRight {t : Token} {as bs : List Action} : AlikeRuns as bs → AlikeRuns as (.scan t :: bs)
  | cons {a b : Action} {as bs : List Action} :
      Action.Alike R a b → AlikeRuns as bs → AlikeRuns (a :: as) (b :: bs)

end

namespace AlikeRuns

variable {R : Token → Token → Prop} {as as' bs bs' : List Action} {s r : TokenStream}

theorem append (h : AlikeRuns R as bs) (h' : AlikeRuns R as' bs') :
    AlikeRuns R (as ++ as') (bs ++ bs') := by
  induction h with
  | nil => exact h'
  | scanLeft _ ih => exact .scanLeft ih
  | scanRight _ ih => exact .scanRight ih
  | cons hab _ ih => exact .cons hab ih

theorem single {a b : Action} (h : Action.Alike R a b) : AlikeRuns R [a] [b] := .cons h .nil

/-- Scans do not count, however many there are. -/
theorem scans (ts us : List Token) : AlikeRuns R (ts.map .scan) (us.map .scan) := by
  induction ts with
  | nil =>
    induction us with
    | nil => exact .nil
    | cons u us ih => exact .scanRight ih
  | cons t ts ih => exact .scanLeft ih

theorem settle (s r : TokenStream) :
    AlikeRuns R (Parser.settle s).actions (Parser.settle r).actions :=
  scans _ _

theorem advance (h : R s.current r.current) :
    AlikeRuns R (advance s).actions (advance r).actions :=
  .cons (.consume h) (settle s.tail r.tail)

end AlikeRuns

/-! ### Reading in step -/

section

open TokenStream

variable {R : Token → Token → Prop} (hR : ∀ t u, R t u → t.kind = u.kind)

include hR

/-- Streams that are alike show tokens of the same kind. -/
theorem TokenStream.Alike.kind_eq {s r : TokenStream} (h : Alike R s r) :
    s.current.kind = r.current.kind :=
  hR _ _ h.current

/-- An expected token is taken from both streams or missed in both. -/
theorem AlikeRuns.expect {s r : TokenStream} (h : Alike R s r) (kind : Kind)
    (complaint : Complaint) :
    AlikeRuns R (Parser.expect kind complaint s).actions (Parser.expect kind complaint r).actions ∧
      Alike R (Parser.expect kind complaint s).rest (Parser.expect kind complaint r).rest := by
  by_cases hk : s.current.kind = kind
  · rw [Parser.expect_of_eq hk, Parser.expect_of_eq (h.kind_eq hR ▸ hk)]
    exact ⟨.advance h.current, h.next⟩
  · rw [Parser.expect_of_ne hk, Parser.expect_of_ne (h.kind_eq hR ▸ hk)]
    exact ⟨.single (.report h.current), h⟩

/-- Groups whose bodies are read in step are read in step. -/
theorem AlikeRuns.group {s r s₁ r₁ : TokenStream} {as bs : List Action} (h : Alike R s r)
    (hbody : AlikeRuns R as bs) (h₁ : Alike R s₁ r₁) :
    AlikeRuns R
      ((Parser.advance s).actions ++ .apply .grouping s.current :: as
        ++ (Parser.expect (.delimiter .rightParen) .expectClosing s₁).actions)
      ((Parser.advance r).actions ++ .apply .grouping r.current :: bs
        ++ (Parser.expect (.delimiter .rightParen) .expectClosing r₁).actions) :=
  ((AlikeRuns.advance h.current).append (.cons (.apply h.current) hbody)).append
    (AlikeRuns.expect hR h₁ _ _).1

/-- Reading the same part from two streams that look alike takes the same actions and leaves
    streams that look alike. What is read next hangs on the kind of the token at the front only. -/
theorem Reads.alike {part : Part} {s s' : TokenStream} {as : List Action} (h : Reads part s as s')
    {r r' : TokenStream} {bs : List Action} (h' : Reads part r bs r') (hsr : Alike R s r) :
    AlikeRuns R as bs ∧ Alike R s' r' := by
  induction h generalizing r r' bs with
  | refused =>
    cases h' with
    | refused => exact ⟨.single (.report hsr.current), hsr⟩
  | missing hn =>
    cases h' with
    | missing _ =>
      refine ⟨?_, hsr.next⟩
      exact .append (.cons .enter (.advance hsr.current))
        (.cons (.report hsr.current) (.single .leave))
    | begun h₁ _ => exact absurd (hsr.kind_eq hR ▸ hn) h₁.starts_of_head
  | begun h₁ _ ih₁ ih₂ =>
    cases h' with
    | missing hn => exact absurd ((hsr.kind_eq hR).symm ▸ hn) h₁.starts_of_head
    | begun h₁' h₂' =>
      obtain ⟨hhead, hsr₁⟩ := ih₁ h₁' hsr
      obtain ⟨htail, hsr₂⟩ := ih₂ h₂' hsr₁
      exact ⟨((AlikeRuns.cons .enter hhead).append htail).append (.single .leave), hsr₂⟩
  | number hk =>
    obtain ⟨rfl, rfl⟩ := h'.head_of_number (hsr.kind_eq hR ▸ hk)
    refine ⟨?_, hsr.next⟩
    exact .append (.advance hsr.current)
      (.cons (.apply hsr.current) (.single (.literal hsr.current)))
  | negate hk _ ih =>
    obtain ⟨bs, h₁', rfl⟩ := h'.head_of_minus (hsr.kind_eq hR ▸ hk)
    obtain ⟨hoperand, hsr₁⟩ := ih h₁' hsr.next
    refine ⟨?_, hsr₁⟩
    exact .append (.append (.advance hsr.current) (.cons (.apply hsr.current) hoperand))
      (.single .emit)
  | closed hk _ hc ih =>
    obtain ⟨bs, r₁, h₁', rfl, rfl⟩ := h'.head_of_leftParen (hsr.kind_eq hR ▸ hk)
    obtain ⟨hbody, hsr₁⟩ := ih h₁' hsr.next
    have hgroup := AlikeRuns.group hR hsr hbody hsr₁
    have hrest := (AlikeRuns.expect hR hsr₁ (.delimiter .rightParen) .expectClosing).2
    rw [Parser.expect_of_eq hc] at hgroup hrest
    exact ⟨hgroup, hrest⟩
  | unclosed hk _ hc ih =>
    obtain ⟨bs, r₁, h₁', rfl, rfl⟩ := h'.head_of_leftParen (hsr.kind_eq hR ▸ hk)
    obtain ⟨hbody, hsr₁⟩ := ih h₁' hsr.next
    have hgroup := AlikeRuns.group hR hsr hbody hsr₁
    have hrest := (AlikeRuns.expect hR hsr₁ (.delimiter .rightParen) .expectClosing).2
    rw [Parser.expect_of_ne hc] at hgroup hrest
    exact ⟨hgroup, hrest⟩
  | done hb =>
    obtain ⟨rfl, rfl⟩ := h'.tail_of_lt (hsr.kind_eq hR ▸ hb)
    exact ⟨.nil, hsr⟩
  | more hk hle _ _ ih₁ ih₂ =>
    obtain ⟨bs, cs, r₁, h₁', h₂', rfl⟩ := h'.tail_of_kind (hsr.kind_eq hR ▸ hk) hle
    obtain ⟨hright, hsr₁⟩ := ih₁ h₁' hsr.next
    obtain ⟨htail, hsr₂⟩ := ih₂ h₂' hsr₁
    refine ⟨?_, hsr₂⟩
    exact .append (.append (.append (.cons (.extend hsr.current) (.advance hsr.current))
      (.cons (.apply hsr.current) hright)) (.cons .emit (.single .merge))) htail

/-- Two whole streams that look alike are read by the same actions. -/
theorem alikeRuns_parse {s r : TokenStream} (h : ∀ n, R (s.purged.get n) (r.purged.get n)) :
    AlikeRuns R (parse s) (parse r) := by
  obtain ⟨as, s', hs, hparse⟩ := exists_reads_parse s
  obtain ⟨bs, r', hr, hparse'⟩ := exists_reads_parse r
  obtain ⟨hruns, hrest⟩ := hs.alike hR hr (alike_settle h)
  have hexpect := (AlikeRuns.expect hR hrest .eof .expectEnd).1
  rw [hparse, hparse']
  exact (((AlikeRuns.settle s r).append hruns).append hexpect).append (.single .emit)

end

/-! ### Writing in step -/

/-- The same complaint, at the positions of related tokens. -/
def LocatedAlike (R : Token → Token → Prop) (d e : Complaint × Position) : Prop :=
  d.1 = e.1 ∧ ∃ t u, R t u ∧ d.2 = t.position ∧ e.2 = u.position

/-- The complaints about tokens among some diagnostics. -/
def complaintsOf (ds : List Diagnostic) : List (Complaint × Position) :=
  ds.filterMap Diagnostic.complaint?

@[simp] theorem complaintsOf_append (ds es : List Diagnostic) :
    complaintsOf (ds ++ es) = complaintsOf ds ++ complaintsOf es :=
  List.filterMap_append ..

namespace Assembly

/-- Two chunks in the making are the same, and the complaints about them are about related
    tokens. Errors of the text need not be the same. -/
structure Alike (R : Token → Token → Prop) (a b : Assembly) : Prop where
  chunk : a.chunk = b.chunk
  pending : a.pending = b.pending
  complaints : List.Forall₂ (LocatedAlike R) (complaintsOf a.diagnostics.toList)
    (complaintsOf b.diagnostics.toList)

variable {R : Token → Token → Prop} {a b : Assembly}

/-- A scan at most records an error of the text. -/
theorem scan_eq (a : Assembly) (t : Token) :
    (a.perform (.scan t)).chunk = a.chunk ∧ (a.perform (.scan t)).pending = a.pending ∧
      complaintsOf (a.perform (.scan t)).diagnostics.toList
        = complaintsOf a.diagnostics.toList := by
  rw [perform_diagnostics, complaintsOf_append, perform, remarks]
  by_cases ht : t.isError
  · rw [if_pos ht, if_pos ht]
    exact ⟨rfl, rfl, List.append_nil _⟩
  · rw [if_neg ht, if_neg ht]
    exact ⟨rfl, rfl, List.append_nil _⟩

/-- Scanning a token on one side changes nothing that counts. -/
theorem Alike.scanLeft (h : Alike R a b) (t : Token) : Alike R (a.perform (.scan t)) b := by
  obtain ⟨hchunk, hpending, hcomplaints⟩ := a.scan_eq t
  exact ⟨hchunk.trans h.chunk, hpending.trans h.pending, hcomplaints ▸ h.complaints⟩

theorem Alike.scanRight (h : Alike R a b) (t : Token) : Alike R a (b.perform (.scan t)) := by
  obtain ⟨hchunk, hpending, hcomplaints⟩ := b.scan_eq t
  exact ⟨h.chunk.trans hchunk.symm, h.pending.trans hpending.symm, hcomplaints ▸ h.complaints⟩

/-- What is said about actions that are alike is the same, about related tokens. A number is read
    from its lexeme alone. -/
theorem Alike.complaintsOf_remarks (hR : ∀ t u, R t u → t.lexeme = u.lexeme) (h : Alike R a b)
    {x y : Action} (hxy : Action.Alike R x y) :
    List.Forall₂ (LocatedAlike R) (complaintsOf (a.remarks x)) (complaintsOf (b.remarks y)) := by
  have located : ∀ {t u : Token} (complaint : Complaint), R t u →
      LocatedAlike R (complaint, t.position) (complaint, u.position) :=
    fun complaint ht => ⟨rfl, _, _, ht, rfl, rfl⟩
  cases hxy with
  | report ht => exact .cons (located _ ht) .nil
  | @literal t u ht =>
    rw [remarks, remarks, hR t u ht, h.chunk, h.pending]
    cases Literal.read? u.lexeme with
    | none => exact .cons (located _ ht) .nil
    | some value =>
      rw [complaintsOf_append, complaintsOf_append]
      refine List.rel_append ?_ ?_
      · by_cases hc : b.chunk.constants.size < constantMax
        · rw [if_pos hc, if_pos hc]
          exact .nil
        · rw [if_neg hc, if_neg hc]
          exact .cons (located _ ht) .nil
      · by_cases hp : b.pending + 1 = stackMax + 1
        · rw [if_pos hp, if_pos hp]
          exact .cons (located _ ht) .nil
        · rw [if_neg hp, if_neg hp]
          exact .nil
  | _ => exact .nil

/-- Actions that are alike write the same. -/
theorem Alike.perform (hR : ∀ t u, R t u → t.lexeme = u.lexeme) (h : Alike R a b)
    {x y : Action} (hxy : Action.Alike R x y) : Alike R (a.perform x) (b.perform y) := by
  have hcomplaints : List.Forall₂ (LocatedAlike R)
      (complaintsOf (a.perform x).diagnostics.toList)
      (complaintsOf (b.perform y).diagnostics.toList) := by
    rw [perform_diagnostics, perform_diagnostics, complaintsOf_append, complaintsOf_append]
    exact List.rel_append h.complaints (h.complaintsOf_remarks hR hxy)
  cases hxy with
  | @literal t u ht =>
    refine ⟨?_, ?_, hcomplaints⟩
    · rw [Assembly.perform, Assembly.perform, hR t u ht]
      cases Literal.read? u.lexeme with
      | none => exact h.chunk
      | some value => rw [constant_chunk, constant_chunk, h.chunk]
    · rw [Assembly.perform, Assembly.perform, hR t u ht]
      cases Literal.read? u.lexeme with
      | none => exact h.pending
      | some value => rw [constant_pending, constant_pending, h.pending]
  | @emit opcode => exact ⟨congrArg (Chunk.emit · opcode) h.chunk, h.pending, hcomplaints⟩
  | merge => exact ⟨h.chunk, congrArg (· - 1) h.pending, hcomplaints⟩
  | _ => exact ⟨h.chunk, h.pending, hcomplaints⟩

/-- So do runs of them, whatever is scanned in between. -/
theorem Alike.performAll (hR : ∀ t u, R t u → t.lexeme = u.lexeme) {as bs : List Action}
    (hruns : AlikeRuns R as bs) (h : Alike R a b) :
    Alike R (a.performAll as) (b.performAll bs) := by
  induction hruns generalizing a b with
  | nil => exact h
  | scanLeft _ ih => exact ih (h.scanLeft _)
  | scanRight _ ih => exact ih (h.scanRight _)
  | cons hxy _ ih => exact ih (h.perform hR hxy)

end Assembly

/-! ### Source texts -/

/-- How a token is spelled, wherever it stands. -/
def Token.spelling (t : Token) : Kind × String := (t.kind, t.lexeme)

/-- Two tokens have the same index in two lists. -/
def Corresponding (ts us : List Token) (t u : Token) : Prop :=
  ∃ i : Nat, ts[i]? = some t ∧ us[i]? = some u

/-- Tokens that correspond are spelled alike. -/
theorem Corresponding.spelling_eq {ts us : List Token} {t u : Token}
    (h : ts.map Token.spelling = us.map Token.spelling) (htu : Corresponding ts us t u) :
    t.spelling = u.spelling := by
  obtain ⟨i, ht, hu⟩ := htu
  have hi := congrArg (·[i]?) h
  simpa [ht, hu] using hi

/-- Streams with as many visible tokens show corresponding ones at every index, also beyond the
    end of the text. -/
theorem TokenStream.corresponding_get {s r : TokenStream}
    (h : s.visible.length = r.visible.length) (n : Nat) :
    Corresponding s.visible r.visible (s.purged.get n) (r.purged.get n) := by
  rw [length_visible, length_visible, Nat.add_right_cancel_iff] at h
  refine ⟨min n s.tokens.length, s.getElem?_visible n, ?_⟩
  rw [h]
  exact r.getElem?_visible n

/-- **Layout and errors of the text do not show in the code.** If two source texts have the same
    tokens, apart from errors and wherever they stand, then compiling them at the end of a chunk
    leads to the same code and constants, and to as many complaints about tokens. These are the same
    complaints in the same order, about tokens of the same index. -/
theorem compileInto_of_spelling_eq (chunk : Chunk) {source source' : String}
    (h : (scan source).visible.map Token.spelling = (scan source').visible.map Token.spelling) :
    (compileInto chunk source).chunk = (compileInto chunk source').chunk ∧
      List.Forall₂ (LocatedAlike (Corresponding (scan source).visible (scan source').visible))
        (complaintsOf (compileInto chunk source).diagnostics)
        (complaintsOf (compileInto chunk source').diagnostics) := by
  have hlength : (scan source).visible.length = (scan source').visible.length := by
    simpa using congrArg List.length h
  have hsame : ∀ t u, Corresponding (scan source).visible (scan source').visible t u →
      t.kind = u.kind ∧ t.lexeme = u.lexeme := by
    intro t u htu
    exact Prod.mk.inj (htu.spelling_eq h)
  have hruns := alikeRuns_parse (fun t u htu => (hsame t u htu).1)
    (TokenStream.corresponding_get hlength)
  have hstart : Assembly.Alike (Corresponding (scan source).visible (scan source').visible)
      { chunk } { chunk } := ⟨rfl, rfl, .nil⟩
  have hend := hstart.performAll (fun t u htu => (hsame t u htu).2) hruns
  exact ⟨hend.chunk, hend.complaints⟩

/-- A stray character and a comment move the two complaints about `1 + ) 2`, and that is all. -/
theorem compileInto_of_spelling_eq_stray :
    (compileInto .empty "1 + ) 2").chunk = (compileInto .empty "1@+ // sum\n) 2").chunk ∧
      complaintsOf (compileInto .empty "1 + ) 2").diagnostics
        = [(.expectExpression, ⟨1, 5⟩), (.expectEnd, ⟨1, 7⟩)] ∧
      complaintsOf (compileInto .empty "1@+ // sum\n) 2").diagnostics
        = [(.expectExpression, ⟨2, 1⟩), (.expectEnd, ⟨2, 3⟩)] :=
  ⟨(compileInto_of_spelling_eq .empty (by decide +kernel)).1, by decide +kernel,
    by decide +kernel⟩

end Abacus
