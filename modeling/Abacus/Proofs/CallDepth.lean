import Abacus.Proofs.Reading

namespace Abacus

open Abacus.Parser (advance)

/-!
# How deep reading nests

Parts of an expression are read inside of each other. The parser keeps no account of the operands
that it has begun and not yet ended, it only knows how many levels are left. Both come to the same,
wherever it is.

* `Nests levels as` — operands begin and end in pairs, and never more than `levels` at once are
  begun and not ended; `Reads.nests` says so of reading any part.
* `Calls part s before inner s'` — reading a part from `s` comes, after some actions, to reading
  another part from `s'` inside of it; `Reaches` goes on from there, and counts the operands on its
  way.
* `Reaches.levels_eq`, `Reaches.count_eq` — the levels that are left, and the operands that have
  begun and not ended, are told by that count.
* `Reads.exists_reaches` — nothing else begins an operand, refuses one or goes on with one.
* `Part.Paces`, `Reads.paces` — whatever begins an operand or goes on with one takes a token first.
-/

/-! ### Taking tokens -/

/-- Does an action take a token, or scan for one? -/
def Action.takes : Action → Bool
  | .scan _ | .consume _ => true
  | .enter | .leave | .extend _ | .apply _ _ | .literal _ | .emit _ | .merge | .report _ _ => false

theorem takes_of_mem_settle {s : TokenStream} {x : Action} (h : x ∈ (Parser.settle s).actions) :
    x.takes = true := by
  obtain ⟨t, -, rfl⟩ := List.mem_map.1 h
  rfl

theorem takes_of_mem_advance {s : TokenStream} {x : Action} (h : x ∈ (advance s).actions) :
    x.takes = true := by
  rcases List.mem_cons.1 h with rfl | h
  · rfl
  · exact takes_of_mem_settle h

/-! ### Operands inside of operands -/

/-- Operands begin and end in pairs, and never more than `levels` of them at once. -/
structure Nests (levels : Nat) (as : List Action) : Prop where
  balanced : as.count .enter = as.count .leave
  bounded : ∀ p, p <+: as →
    p.count .leave ≤ p.count .enter ∧ p.count .enter ≤ p.count .leave + levels

namespace Nests

variable {levels : Nat} {as bs : List Action}

/-- Where no operand begins or ends, nothing is nested. -/
theorem flat (h : .enter ∉ as) (h' : .leave ∉ as) (levels : Nat) : Nests levels as := by
  refine ⟨?_, ?_⟩
  · rw [List.count_eq_zero.2 h, List.count_eq_zero.2 h']
  · intro p hp
    rw [List.count_eq_zero.2 fun hmem => h (hp.subset hmem),
      List.count_eq_zero.2 fun hmem => h' (hp.subset hmem)]
    omega

theorem append (h : Nests levels as) (h' : Nests levels bs) : Nests levels (as ++ bs) := by
  refine ⟨?_, ?_⟩
  · rw [List.count_append, List.count_append, h.balanced, h'.balanced]
  · intro p hp
    rcases List.prefix_or_prefix_of_prefix hp (List.prefix_append as bs) with hp' | ⟨q, rfl⟩
    · exact h.bounded p hp'
    · have hq := h'.bounded q ((List.prefix_append_right_inj as).1 hp)
      have hbalanced := h.balanced
      simp only [List.count_append]
      omega

/-- An operand around others is one level more. -/
theorem wrap (h : Nests levels as) : Nests (levels + 1) (.enter :: as ++ [.leave]) := by
  refine ⟨?_, ?_⟩
  · simp [h.balanced]
  · intro p hp
    rcases List.prefix_concat_iff.1 hp with rfl | hp'
    · simp [h.balanced]
    · cases p with
      | nil => simp
      | cons x q =>
        obtain ⟨rfl, hq⟩ := List.cons_prefix_cons.1 hp'
        have hbounded := h.bounded q hq
        simp only [List.count_cons_self, ne_eq, reduceCtorEq, not_false_eq_true,
          List.count_cons_of_ne]
        omega

/-- Where tokens are taken and scanned only, no operand begins or ends. -/
theorem of_takes (h : ∀ x ∈ as, x.takes = true) (levels : Nat) : Nests levels as :=
  flat (fun hx => nomatch h _ hx) (fun hx => nomatch h _ hx) levels

theorem settle (s : TokenStream) (levels : Nat) : Nests levels (Parser.settle s).actions :=
  of_takes (fun _ => takes_of_mem_settle) levels

theorem advance (s : TokenStream) (levels : Nat) : Nests levels (advance s).actions :=
  of_takes (fun _ => takes_of_mem_advance) levels

end Nests

/-- How many levels are left when a part is read. -/
def Part.levels : Part → Nat
  | .operand levels _ | .head levels | .tail levels _ => levels

/-- Whatever part is read, operands nest no deeper in it than there are levels left, and all of them
    have ended at its end. -/
theorem Reads.nests {part : Part} {s s' : TokenStream} {as : List Action}
    (h : Reads part s as s') : Nests part.levels as := by
  induction h with
  | refused => exact .flat (by simp) (by simp) _
  | @missing levels _ s _ =>
    have hreport : Nests levels [.report .expectExpression s.current] :=
      .flat (by simp) (by simp) _
    simpa [Part.levels] using ((Nests.advance s levels).append hreport).wrap
  | begun _ _ ih₁ ih₂ => simpa [Part.levels] using (ih₁.append ih₂).wrap
  | number _ => exact (Nests.advance _ _).append (.flat (by simp) (by simp) _)
  | @negate levels s _ _ _ _ ih =>
    have hsign : Nests levels [.apply .unary s.current] := .flat (by simp) (by simp) _
    have hnegate : Nests levels [.emit .negate] := .flat (by simp) (by simp) _
    exact ((Nests.advance s levels).append (hsign.append ih)).append hnegate
  | @closed levels s s₁ _ _ _ _ ih =>
    have hopen : Nests levels [.apply .grouping s.current] := .flat (by simp) (by simp) _
    exact ((Nests.advance s levels).append (hopen.append ih)).append (.advance s₁ levels)
  | @unclosed levels s s₁ _ _ _ _ ih =>
    have hopen : Nests levels [.apply .grouping s.current] := .flat (by simp) (by simp) _
    have hreport : Nests levels [.report .expectClosing s₁.current] := .flat (by simp) (by simp) _
    exact ((Nests.advance s levels).append (hopen.append ih)).append hreport
  | done _ => exact .flat (by simp) (by simp) _
  | @more levels _ op s _ _ _ _ _ _ _ _ ih₁ ih₂ =>
    have hextend : Nests levels [.extend s.current] := .flat (by simp) (by simp) _
    have hjoin : Nests levels [.apply .binary s.current] := .flat (by simp) (by simp) _
    have hmerge : Nests levels [.emit op.opcode, .merge] := .flat (by simp) (by simp) _
    have hright := (hextend.append (.advance s levels)).append (hjoin.append ih₁)
    exact (hright.append hmerge).append ih₂

/-! ### Parts inside of parts -/

/-- Reading a part comes, after some actions, to a part inside of it: an operand to its beginning
    and then to its operators, a sign or a parenthesis to an operand, and an operator to its right
    operand and then to the operators after that. -/
inductive Calls : Part → TokenStream → (before : List Action) → Part → TokenStream → Prop where
  | head {levels : Nat} {least : Precedence} {s : TokenStream} :
      (Rule.of s.current.kind).starts ≠ none →
        Calls (.operand (levels + 1) least) s [.enter] (.head levels) s
  | tail {levels : Nat} {least : Precedence} {s s₁ : TokenStream} {as : List Action} :
      Reads (.head levels) s as s₁ →
        Calls (.operand (levels + 1) least) s (.enter :: as) (.tail levels least) s₁
  | negated {levels : Nat} {s : TokenStream} :
      s.current.kind = .operator .minus false →
        Calls (.head levels) s ((advance s).actions ++ [.apply .unary s.current])
          (.operand levels .unary) s.next
  | grouped {levels : Nat} {s : TokenStream} :
      s.current.kind = .delimiter .leftParen →
        Calls (.head levels) s ((advance s).actions ++ [.apply .grouping s.current])
          (.operand levels .assignment) s.next
  | right {levels : Nat} {least : Precedence} {op : BinaryOp} {s : TokenStream} :
      s.current.kind = op.kind → least ≤ op.binding →
        Calls (.tail levels least) s
          (.extend s.current :: (advance s).actions ++ [.apply .binary s.current])
          (.operand levels op.binding.next) s.next
  | next {levels : Nat} {least : Precedence} {op : BinaryOp} {s s₁ : TokenStream}
      {as : List Action} :
      s.current.kind = op.kind → least ≤ op.binding →
        Reads (.operand levels op.binding.next) s.next as s₁ →
          Calls (.tail levels least) s
            (.extend s.current :: (advance s).actions
              ++ .apply .binary s.current :: as ++ [.emit op.opcode, .merge])
            (.tail levels least) s₁

/-- How many operands begin when a part is read and are not ended before a part inside of it. -/
def Part.bodies : Part → Nat
  | .operand _ _ => 1
  | .head _ | .tail _ _ => 0

/-- Reading a part comes, after some actions, to a part somewhere inside of it. Of the operands on
    the way, `active` have begun. -/
inductive Reaches : Part → TokenStream → (active : Nat) → (before : List Action) →
    Part → TokenStream → Prop where
  | here {part : Part} {s : TokenStream} : Reaches part s 0 [] part s
  | inside {part mid inner : Part} {s s₁ s₂ : TokenStream} {active : Nat}
      {before later : List Action} :
      Calls part s before mid s₁ → Reaches mid s₁ active later inner s₂ →
        Reaches part s (part.bodies + active) (before ++ later) inner s₂

section

variable {part inner : Part} {s s₁ : TokenStream} {active : Nat} {before : List Action}

/-- A part inside of another has as many levels left as the operands in between leave. -/
theorem Calls.levels_eq (h : Calls part s before inner s₁) :
    part.bodies + inner.levels = part.levels := by
  cases h <;> simp only [Part.bodies, Part.levels] <;> omega

/-- On the way to a part inside of another, operands that have ended do not count. -/
theorem Calls.count_eq (h : Calls part s before inner s₁) :
    before.count .enter = before.count .leave + part.bodies := by
  cases h with
  | head _ => rfl
  | tail h₁ => simp [h₁.nests.balanced, Part.bodies]
  | negated _ => simp [(Nests.advance s 0).balanced, Part.bodies]
  | grouped _ => simp [(Nests.advance s 0).balanced, Part.bodies]
  | right _ _ => simp [(Nests.advance s 0).balanced, Part.bodies]
  | next _ _ h₁ => simp [(Nests.advance s 0).balanced, h₁.nests.balanced, Part.bodies]

/-- A part that is come to is read there. -/
theorem Reads.exists_of_calls {as : List Action} {s' : TokenStream} (h : Reads part s as s')
    (hcalls : Calls part s before inner s₁) :
    ∃ bs s₂ after, Reads inner s₁ bs s₂ ∧ as = before ++ bs ++ after := by
  cases hcalls with
  | head hs =>
    cases h with
    | missing hn => exact absurd hn hs
    | @begun _ _ _ _ _ as bs h₁ _ => exact ⟨as, _, bs ++ [.leave], h₁, by simp⟩
  | tail h₁ =>
    cases h with
    | missing hn => exact absurd hn h₁.starts_of_head
    | begun h₁' h₂ =>
      obtain ⟨rfl, rfl⟩ := h₁.unique h₁'
      exact ⟨_, _, [.leave], h₂, by simp⟩
  | negated hk =>
    obtain ⟨bs, h₁, rfl⟩ := h.head_of_minus hk
    exact ⟨bs, _, [.emit .negate], h₁, by simp⟩
  | grouped hk =>
    obtain ⟨bs, s₂, h₁, rfl, -⟩ := h.head_of_leftParen hk
    exact ⟨bs, s₂, (Parser.expect (.delimiter .rightParen) .expectClosing s₂).actions, h₁, by simp⟩
  | @right _ _ op _ hk hle =>
    obtain ⟨bs, cs, s₂, h₁, -, rfl⟩ := h.tail_of_kind hk hle
    exact ⟨bs, _, [.emit op.opcode, .merge] ++ cs, h₁, by simp⟩
  | next hk hle h₁ =>
    obtain ⟨bs, cs, s₂, h₁', h₂, rfl⟩ := h.tail_of_kind hk hle
    obtain ⟨rfl, rfl⟩ := h₁.unique h₁'
    exact ⟨cs, _, [], h₂, by simp⟩

namespace Reaches

/-- Every operand on the way takes one level. -/
theorem levels_eq (h : Reaches part s active before inner s₁) :
    active + inner.levels = part.levels := by
  induction h with
  | here => exact Nat.zero_add _
  | inside hcalls _ ih =>
    have hstep := hcalls.levels_eq
    omega

/-- The operands on the way are those that have begun and not ended. -/
theorem count_eq (h : Reaches part s active before inner s₁) :
    before.count .enter = before.count .leave + active := by
  induction h with
  | here => rfl
  | inside hcalls _ ih =>
    have hstep := hcalls.count_eq
    simp only [List.count_append]
    omega

/-- What is read where a part is reached is a stretch of what the whole part reads. -/
theorem exists_reads (h : Reaches part s active before inner s₁) {as : List Action}
    {s' : TokenStream} (hreads : Reads part s as s') :
    ∃ bs s₂ after, Reads inner s₁ bs s₂ ∧ as = before ++ bs ++ after := by
  induction h generalizing as s' with
  | here => exact ⟨as, s', [], hreads, by simp⟩
  | inside hcalls _ ih =>
    obtain ⟨bs, s₂, after, h₁, rfl⟩ := hreads.exists_of_calls hcalls
    obtain ⟨cs, s₃, after', h₂, rfl⟩ := ih h₁
    exact ⟨cs, s₃, after' ++ after, h₂, by simp⟩

end Reaches

end

/-! ### Where operands begin -/

/-- Does an action begin an operand, go on with one, or refuse one that would be too deep? -/
def Action.opens : Action → Bool
  | .enter | .extend _ | .report .nestedTooDeeply _ => true
  | _ => false

/-- The action with which a part begins: an operand begins, or is refused if no level is left, and
    operators go on with an operand. -/
inductive Part.Opens : Part → TokenStream → Action → Prop where
  | body {levels : Nat} {least : Precedence} {s : TokenStream} :
      Opens (.operand (levels + 1) least) s .enter
  | refusal {least : Precedence} {s : TokenStream} :
      Opens (.operand 0 least) s (.report .nestedTooDeeply s.current)
  | iteration {levels : Nat} {least : Precedence} {s : TokenStream} :
      Opens (.tail levels least) s (.extend s.current)

/-- Taking a token neither begins an operand nor goes on with one. -/
theorem Action.opens_of_takes {x : Action} (h : x.takes = true) : x.opens = false := by
  cases x <;> first | rfl | simp [Action.takes] at h

theorem opens_settle (s : TokenStream) : ∀ y ∈ (Parser.settle s).actions, y.opens = false :=
  fun _ hy => Action.opens_of_takes (takes_of_mem_settle hy)

theorem opens_advance (s : TokenStream) : ∀ y ∈ (advance s).actions, y.opens = false :=
  fun _ hy => Action.opens_of_takes (takes_of_mem_advance hy)

section

variable {xs ys before after : List Action} {x : Action}

/-- An action stands among the first ones, or among those behind them. -/
theorem exists_or_exists_of_append_eq (h : xs ++ ys = before ++ x :: after) :
    (∃ rest, xs = before ++ x :: rest) ∨
      ∃ later, before = xs ++ later ∧ ys = later ++ x :: after := by
  rcases List.append_eq_append_iff.1 h with ⟨later, hbefore, hys⟩ | ⟨later, rfl, hys⟩
  · exact .inr ⟨later, hbefore, hys⟩
  · cases later with
    | nil => exact .inr ⟨[], by simp, hys.symm⟩
    | cons y later =>
      injection hys with hy _
      subst hy
      exact .inl ⟨later, rfl⟩

/-- Among actions that open nothing, none does. -/
theorem ne_append_cons_of_opens {as : List Action} (hx : x.opens = true)
    (has : ∀ y ∈ as, y.opens = false) : as ≠ before ++ x :: after := by
  rintro rfl
  have hnot := has x (by simp)
  simp [hx] at hnot

/-- When a token is taken and what follows is read, what opens something is inside. -/
theorem exists_of_advance_append_eq {s : TokenStream} {y : Action} {inner back : List Action}
    (hx : x.opens = true) (hy : y.opens = false) (hback : ∀ z ∈ back, z.opens = false)
    (h : (advance s).actions ++ y :: inner ++ back = before ++ x :: after) :
    ∃ later rest, before = (advance s).actions ++ [y] ++ later ∧ inner = later ++ x :: rest := by
  have hfront : ∀ z ∈ (advance s).actions ++ [y], z.opens = false := by
    rw [List.forall_mem_append, List.forall_mem_singleton]
    exact ⟨opens_advance s, hy⟩
  rcases exists_or_exists_of_append_eq h with ⟨rest, hrest⟩ | ⟨_, -, hrest⟩
  · rw [List.append_cons] at hrest
    rcases exists_or_exists_of_append_eq hrest with ⟨_, hrest'⟩ | ⟨later, hbefore, hinner⟩
    · exact absurd hrest' (ne_append_cons_of_opens hx hfront)
    · exact ⟨later, rest, hbefore, hinner⟩
  · exact absurd hrest (ne_append_cons_of_opens hx hback)

end

/-- Wherever an operand begins, goes on or is refused, a part is come to that begins so. -/
theorem Reads.exists_reaches {part : Part} {s s' : TokenStream} {as before after : List Action}
    {x : Action} (h : Reads part s as s') (hx : x.opens = true)
    (heq : as = before ++ x :: after) :
    ∃ active inner s₁, Reaches part s active before inner s₁ ∧ inner.Opens s₁ x := by
  induction h generalizing before after with
  | refused =>
    obtain ⟨rfl, hcons⟩ | ⟨later, -, hlater⟩ := List.cons_eq_append_iff.1 heq
    · obtain ⟨rfl, -⟩ := List.cons.inj hcons
      exact ⟨_, _, _, .here, .refusal⟩
    · simp at hlater
  | missing _ =>
    rw [List.cons_append, List.cons_eq_append_iff] at heq
    obtain ⟨rfl, hcons⟩ | ⟨later, -, hlater⟩ := heq
    · obtain ⟨rfl, -⟩ := List.cons.inj hcons
      exact ⟨_, _, _, .here, .body⟩
    · refine absurd hlater (ne_append_cons_of_opens hx ?_)
      simpa [or_imp, forall_and, Action.opens] using opens_advance _
  | begun h₁ _ ih₁ ih₂ =>
    rw [List.cons_append, List.cons_append, List.cons_eq_append_iff] at heq
    obtain ⟨rfl, hcons⟩ | ⟨later, rfl, hlater⟩ := heq
    · obtain ⟨rfl, -⟩ := List.cons.inj hcons
      exact ⟨_, _, _, .here, .body⟩
    -- What is inside of the operand is at its beginning or among its operators.
    rcases exists_or_exists_of_append_eq hlater with ⟨rest, hrest⟩ | ⟨_, -, hrest⟩
    · rcases exists_or_exists_of_append_eq hrest with ⟨_, hhead⟩ | ⟨later', rfl, htail⟩
      · obtain ⟨active, inner, s₁, hreaches, hopens⟩ := ih₁ hhead
        exact ⟨_, inner, s₁, .inside (.head h₁.starts_of_head) hreaches, hopens⟩
      · obtain ⟨active, inner, s₁, hreaches, hopens⟩ := ih₂ htail
        exact ⟨_, inner, s₁, .inside (.tail h₁) hreaches, hopens⟩
    · exact absurd hrest (ne_append_cons_of_opens hx (List.forall_mem_singleton.2 rfl))
  | number _ =>
    refine absurd heq (ne_append_cons_of_opens hx ?_)
    simpa [or_imp, forall_and, Action.opens] using opens_advance _
  | negate hk _ ih =>
    obtain ⟨later, rest, rfl, hrest⟩ :=
      exists_of_advance_append_eq hx rfl (List.forall_mem_singleton.2 rfl) heq
    obtain ⟨active, inner, s₁, hreaches, hopens⟩ := ih hrest
    exact ⟨_, inner, s₁, .inside (.negated hk) hreaches, hopens⟩
  | closed hk _ _ ih =>
    obtain ⟨later, rest, rfl, hrest⟩ := exists_of_advance_append_eq hx rfl (opens_advance _) heq
    obtain ⟨active, inner, s₁, hreaches, hopens⟩ := ih hrest
    exact ⟨_, inner, s₁, .inside (.grouped hk) hreaches, hopens⟩
  | unclosed hk _ _ ih =>
    obtain ⟨later, rest, rfl, hrest⟩ :=
      exists_of_advance_append_eq hx rfl (List.forall_mem_singleton.2 rfl) heq
    obtain ⟨active, inner, s₁, hreaches, hopens⟩ := ih hrest
    exact ⟨_, inner, s₁, .inside (.grouped hk) hreaches, hopens⟩
  | done _ => simp at heq
  | more hk hle h₁ _ ih₁ ih₂ =>
    simp only [List.cons_append] at heq
    obtain ⟨rfl, hcons⟩ | ⟨later, rfl, hlater⟩ := List.cons_eq_append_iff.1 heq
    · obtain ⟨rfl, -⟩ := List.cons.inj hcons
      exact ⟨_, _, _, .here, .iteration⟩
    -- What is behind the operator is in its right operand or among the operators after that.
    rcases exists_or_exists_of_append_eq hlater with ⟨rest, hrest⟩ | ⟨later', rfl, hrest⟩
    · obtain ⟨later', _, rfl, hright⟩ :=
        exists_of_advance_append_eq hx rfl (by simp [Action.opens]) hrest
      obtain ⟨active, inner, s₁, hreaches, hopens⟩ := ih₁ hright
      exact ⟨_, inner, s₁, .inside (.right hk hle) hreaches, hopens⟩
    · obtain ⟨active, inner, s₁, hreaches, hopens⟩ := ih₂ hrest
      exact ⟨_, inner, s₁, .inside (.next hk hle h₁) hreaches, hopens⟩

/-! ### One token at a time -/

/-- Actions begin by taking the token at the front, and take no other one right after it. -/
def TakesOne (s : TokenStream) (as : List Action) : Prop :=
  ∃ x rest, as = (advance s).actions ++ x :: rest ∧ x.takes = false

/-- How the parts of an expression take tokens: an operand takes one as soon as it begins, and its
    operators go on with one that is not the end of the text, or are over. What is refused takes
    none. -/
def Part.Paces : Part → TokenStream → List Action → Prop
  | .operand 0 _, s, as => as = [.report .nestedTooDeeply s.current]
  | .operand (_ + 1) _, s, as => ∃ rest, as = .enter :: rest ∧ TakesOne s rest
  | .head _, s, as => TakesOne s as
  | .tail _ _, s, as =>
    as = [] ∨ s.current.kind ≠ .eof ∧ ∃ rest, as = .extend s.current :: rest ∧ TakesOne s rest

theorem BinaryOp.kind_ne_eof (op : BinaryOp) : op.kind ≠ .eof := by
  cases op <;> decide

theorem TakesOne.append {s : TokenStream} {as : List Action} (h : TakesOne s as)
    (bs : List Action) : TakesOne s (as ++ bs) := by
  obtain ⟨x, rest, rfl, hx⟩ := h
  exact ⟨x, rest ++ bs, by simp, hx⟩

/-- The beginning of an operand takes one token. -/
theorem Reads.takesOne {levels : Nat} {s s' : TokenStream} {as : List Action}
    (h : Reads (.head levels) s as s') : TakesOne s as := by
  cases h with
  | number _ => exact ⟨_, _, rfl, rfl⟩
  | negate _ _ => exact .append ⟨_, _, rfl, rfl⟩ _
  | closed _ _ _ => exact .append ⟨_, _, rfl, rfl⟩ _
  | unclosed _ _ _ => exact .append ⟨_, _, rfl, rfl⟩ _

/-- Every part takes its tokens one at a time. -/
theorem Reads.paces {part : Part} {s s' : TokenStream} {as : List Action}
    (h : Reads part s as s') : part.Paces s as := by
  cases part with
  | operand levels least =>
    cases h with
    | refused => rfl
    | missing _ => exact ⟨_, rfl, _, _, rfl, rfl⟩
    | begun h₁ _ => exact ⟨_, rfl, (h₁.takesOne.append _).append _⟩
  | head levels => exact h.takesOne
  | tail levels least =>
    cases h with
    | done _ => exact .inl rfl
    | @more _ _ op _ _ _ _ _ hk _ _ _ =>
      exact .inr ⟨hk ▸ op.kind_ne_eof, _, rfl, .append (.append ⟨_, _, rfl, rfl⟩ _) _⟩

end Abacus
