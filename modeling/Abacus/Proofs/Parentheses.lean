import Abacus.Proofs.Decompilation
import Abacus.Proofs.PositionOrder
import Abacus.Proofs.Rendering

namespace Abacus

/-!
# Parentheses leave no trace

Code and tree determine each other, and the tree of a text has no parentheses. So redundant
parentheses do not show in what a text compiles to.

* `Sentence.Within f e` — `f` is an operand somewhere in `e`, or all of it.
* `Derives.enclosable_of_within` — an operand in parentheses can take its place.
* `Derives.of_spelling_eq` — where tokens stand does not matter to the grammar.
* `IsOperand source before operand after` — a source text is cut around the text of an operand.
* `spelling_enclosed`, `spelling_enclosed_whole` — the tokens of a text with parentheses.
* `IsTreeOf.of_encloses` — so redundant parentheses leave the tree of a text as it is.
* `compile_eq_iff_tree_eq` — what this means for compiled texts.
-/

/-! ### Operands -/

namespace Sentence

/-- The tokens of a tree, in order. -/
def tokens : Sentence → List Token
  | number t => [t]
  | group o body c => o :: body.tokens ++ [c]
  | negate s operand => s :: operand.tokens
  | binary _ left m right => left.tokens ++ m :: right.tokens

/-- The first token of a tree. -/
def first : Sentence → Token
  | number t => t
  | group o _ _ => o
  | negate s _ => s
  | binary _ left _ _ => left.first

/-- The last token of a tree. -/
def last : Sentence → Token
  | number t => t
  | group _ _ c => c
  | negate _ operand => operand.last
  | binary _ _ _ right => right.last

/-- A tree begins with its first token. -/
theorem exists_tokens_eq_cons (e : Sentence) : ∃ ts, e.tokens = e.first :: ts := by
  induction e with
  | number t => exact ⟨[], rfl⟩
  | group o body c _ => exact ⟨body.tokens ++ [c], rfl⟩
  | negate s operand _ => exact ⟨operand.tokens, rfl⟩
  | binary op left m right ih _ =>
    obtain ⟨ts, hts⟩ := ih
    exact ⟨ts ++ m :: right.tokens, by rw [tokens, hts]; rfl⟩

/-- A tree ends with its last token. -/
theorem exists_tokens_eq_concat (e : Sentence) : ∃ ts, e.tokens = ts ++ [e.last] := by
  induction e with
  | number t => exact ⟨[], rfl⟩
  | group o body c _ => exact ⟨o :: body.tokens, rfl⟩
  | negate s operand ih =>
    obtain ⟨ts, hts⟩ := ih
    exact ⟨s :: ts, by rw [tokens, hts]; rfl⟩
  | binary op left m right _ ih =>
    obtain ⟨ts, hts⟩ := ih
    exact ⟨left.tokens ++ m :: ts, by rw [tokens, hts, List.append_assoc]; rfl⟩

/-- A tree is an operand somewhere in another, or all of it. -/
inductive Within (f : Sentence) : Sentence → Prop where
  | whole : Within f f
  | group {o c : Token} {e : Sentence} : Within f e → Within f (.group o e c)
  | negate {s : Token} {e : Sentence} : Within f e → Within f (.negate s e)
  | left {op : BinaryOp} {m : Token} {l r : Sentence} : Within f l → Within f (.binary op l m r)
  | right {op : BinaryOp} {m : Token} {l r : Sentence} : Within f r → Within f (.binary op l m r)

end Sentence

namespace Derives

variable {c : Nonterminal} {ts : List Token} {e f : Sentence}

/-- A tree has the tokens that it is derived from. -/
theorem tokens_eq (d : Derives c ts e) : e.tokens = ts := by
  induction d with
  | number _ => rfl
  | group _ _ _ ih => rw [Sentence.tokens, ih]
  | primary _ ih => exact ih
  | negate _ _ ih => rw [Sentence.tokens, ih]
  | unary _ ih => exact ih
  | term _ ih => exact ih
  | binary _ _ _ ihl ihr => rw [Sentence.tokens, ihl, ihr]

/-- A sentence is made of numbers, parentheses and operators. -/
theorem isArithmetic (d : Derives c ts e) : ∀ t ∈ ts, t.kind.IsArithmetic := by
  induction d with
  | number hk => exact List.forall_mem_singleton.2 (.inl hk)
  | group ho _ hc ih =>
    rw [List.forall_mem_append, List.forall_mem_cons, List.forall_mem_singleton]
    exact ⟨⟨.inr (.inl ho), ih⟩, .inr (.inr (.inl hc))⟩
  | primary _ ih => exact ih
  | negate hk _ ih => exact List.forall_mem_cons.2 ⟨.inr (.inr (.inr ⟨_, hk⟩)), ih⟩
  | unary _ ih => exact ih
  | term _ ih => exact ih
  | @binary op _ _ _ _ _ _ hm _ ihl ihr =>
    rw [List.forall_mem_append, List.forall_mem_cons]
    have hop : op.kind.IsArithmetic := by
      cases op <;> exact .inr (.inr (.inr ⟨_, rfl⟩))
    exact ⟨ihl, hm ▸ hop, ihr⟩

/-- A whole phrase in parentheses can stand wherever the phrase can. -/
theorem enclose (d : Derives c ts e) {o p : Token} (ho : o.kind = .delimiter .leftParen)
    (hp : p.kind = .delimiter .rightParen) : Derives c (o :: ts ++ [p]) (.group o e p) :=
  (Derives.group ho d.toExpr hp).loosen (by cases c <;> decide)

end Derives

/-- Among the tokens of a phrase, an operand can be enclosed in parentheses: what comes of this is a
    phrase with the same tree. -/
def Enclosable (f : Sentence) (c : Nonterminal) (ts : List Token) (e : Sentence) : Prop :=
  ∃ us vs, ts = us ++ f.tokens ++ vs ∧
    ∀ o p : Token, o.kind = .delimiter .leftParen → p.kind = .delimiter .rightParen →
      ∃ e', Derives c (us ++ (o :: f.tokens ++ [p]) ++ vs) e' ∧ e'.expr? = e.expr?

/-- All of a phrase can be enclosed. -/
theorem Derives.enclosable {c : Nonterminal} {ts : List Token} {e : Sentence}
    (d : Derives c ts e) : Enclosable e c ts e := by
  refine ⟨[], [], ?_, ?_⟩
  · rw [d.tokens_eq, List.nil_append, List.append_nil]
  · intro o p ho hp
    refine ⟨.group o e p, ?_, rfl⟩
    rw [d.tokens_eq, List.nil_append, List.append_nil]
    exact d.enclose ho hp

/-- If a phrase is part of another, and others with the same tree can take its place there, then
    what can be enclosed in it can be enclosed in the whole. -/
theorem Enclosable.lift {f e e' : Sentence} {c c' : Nonterminal} {ts : List Token}
    (h : Enclosable f c ts e) (us vs : List Token)
    (hbuild : ∀ ts₁ e₁, Derives c ts₁ e₁ → e₁.expr? = e.expr? →
      ∃ e₂, Derives c' (us ++ ts₁ ++ vs) e₂ ∧ e₂.expr? = e'.expr?) :
    Enclosable f c' (us ++ ts ++ vs) e' := by
  obtain ⟨us', vs', rfl, henclosed⟩ := h
  refine ⟨us ++ us', vs' ++ vs, by simp only [List.append_assoc], ?_⟩
  intro o p ho hp
  obtain ⟨e₁, d₁, hx⟩ := henclosed o p ho hp
  obtain ⟨e₂, d₂, hx₂⟩ := hbuild _ e₁ d₁ hx
  refine ⟨e₂, ?_, hx₂⟩
  simpa only [List.append_assoc] using d₂

/-- A looser nonterminal makes no difference. -/
theorem Enclosable.loosen {f e : Sentence} {c c' : Nonterminal} {ts : List Token}
    (h : Enclosable f c ts e) (hc : c'.binding ≤ c.binding) : Enclosable f c' ts e := by
  have hlift : Enclosable f c' ([] ++ ts ++ []) e := by
    refine h.lift [] [] ?_
    intro ts₁ e₁ d₁ hx
    refine ⟨e₁, ?_, hx⟩
    rw [List.nil_append, List.append_nil]
    exact d₁.loosen hc
  rwa [List.nil_append, List.append_nil] at hlift

/-- Every operand of a phrase can be enclosed. The tree of a phrase is made of the trees of its
    operands, and these stay the same. -/
theorem Derives.enclosable_of_within {f e : Sentence} {c : Nonterminal} {ts : List Token}
    (d : Derives c ts e) (h : f.Within e) : Enclosable f c ts e := by
  induction d generalizing f with
  | number hk =>
    cases h with
    | whole => exact (Derives.number hk).enclosable
  | @group o p ts e ho d hp ih =>
    cases h with
    | whole => exact (Derives.group ho d hp).enclosable
    | group h =>
      refine (ih h).lift [o] [p] ?_
      intro ts₁ e₁ d₁ hx
      exact ⟨.group o e₁ p, .group ho d₁ hp, hx⟩
  | primary _ ih => exact (ih h).loosen (by decide)
  | @negate t ts e hk d ih =>
    cases h with
    | whole => exact (Derives.negate hk d).enclosable
    | negate h =>
      have hlift : Enclosable f .unary ([t] ++ ts ++ []) (.negate t e) := by
        refine (ih h).lift [t] [] ?_
        intro ts₁ e₁ d₁ hx
        refine ⟨.negate t e₁, ?_, ?_⟩
        · rw [List.append_nil]
          exact .negate hk d₁
        · rw [Sentence.expr?, Sentence.expr?, hx]
      rwa [List.append_nil] at hlift
  | unary _ ih => exact (ih h).loosen (by decide)
  | term _ ih => exact (ih h).loosen (by decide)
  | @binary op m ls rs l r dl hm dr ihl ihr =>
    cases h with
    | whole => exact (Derives.binary dl hm dr).enclosable
    | left h =>
      refine (ihl h).lift [] (m :: rs) ?_
      intro ts₁ e₁ d₁ hx
      refine ⟨.binary op e₁ m r, .binary d₁ hm dr, ?_⟩
      rw [Sentence.expr?, Sentence.expr?, hx]
    | right h =>
      have hlift : Enclosable f op.nonterminal (ls ++ [m] ++ rs ++ []) (.binary op l m r) := by
        refine (ihr h).lift (ls ++ [m]) [] ?_
        intro ts₁ e₁ d₁ hx
        refine ⟨.binary op l m e₁, ?_, ?_⟩
        · rw [List.append_nil, List.append_assoc]
          exact .binary dl hm d₁
        · rw [Sentence.expr?, Sentence.expr?, hx]
      rw [List.append_nil, List.append_assoc] at hlift
      exact hlift

/-! ### Spelling -/

/-- Where tokens stand does not matter to the grammar. -/
theorem Derives.of_spelling_eq {c : Nonterminal} {ts ts' : List Token} {e : Sentence}
    (d : Derives c ts e) (h : ts'.map Token.spelling = ts.map Token.spelling) :
    ∃ e', Derives c ts' e' ∧ e'.expr? = e.expr? := by
  have kind_eq : ∀ {t t' : Token}, t'.spelling = t.spelling → t'.kind = t.kind :=
    fun ht => congrArg Prod.fst ht
  induction d generalizing ts' with
  | @number t hk =>
    obtain ⟨t', rfl, ht⟩ := List.map_eq_singleton_iff.1 h
    refine ⟨.number t', .number ((kind_eq ht).trans hk), ?_⟩
    rw [Sentence.expr?, Sentence.expr?, show t'.lexeme = t.lexeme from congrArg Prod.snd ht]
  | group ho _ hp ih =>
    rw [List.map_append, List.map_cons, List.map_singleton] at h
    obtain ⟨us, ps, rfl, hus, hps⟩ := List.map_eq_append_iff.1 h
    obtain ⟨o', ts₁, rfl, ho', hts₁⟩ := List.map_eq_cons_iff.1 hus
    obtain ⟨p', rfl, hp'⟩ := List.map_eq_singleton_iff.1 hps
    obtain ⟨e₁, d₁, hx⟩ := ih hts₁
    exact ⟨.group o' e₁ p', .group ((kind_eq ho').trans ho) d₁ ((kind_eq hp').trans hp), hx⟩
  | primary _ ih =>
    obtain ⟨e', d', hx⟩ := ih h
    exact ⟨e', d'.primary, hx⟩
  | negate hk _ ih =>
    obtain ⟨t', ts₁, rfl, ht', hts₁⟩ := List.map_eq_cons_iff.1 h
    obtain ⟨e₁, d₁, hx⟩ := ih hts₁
    refine ⟨.negate t' e₁, .negate ((kind_eq ht').trans hk) d₁, ?_⟩
    rw [Sentence.expr?, Sentence.expr?, hx]
  | unary _ ih =>
    obtain ⟨e', d', hx⟩ := ih h
    exact ⟨e', d'.unary, hx⟩
  | term _ ih =>
    obtain ⟨e', d', hx⟩ := ih h
    exact ⟨e', d'.term, hx⟩
  | binary _ hm _ ihl ihr =>
    rw [List.map_append, List.map_cons] at h
    obtain ⟨ls', rs', rfl, hls, hrs⟩ := List.map_eq_append_iff.1 h
    obtain ⟨m', rs', rfl, hm', hrs'⟩ := List.map_eq_cons_iff.1 hrs
    obtain ⟨l', dl, hl⟩ := ihl hls
    obtain ⟨r', dr, hr⟩ := ihr hrs'
    refine ⟨.binary _ l' m' r', .binary dl ((kind_eq hm').trans hm) dr, ?_⟩
    rw [Sentence.expr?, Sentence.expr?, hl, hr]

/-! ### Texts -/

/-- A source text is cut in three, and the text in the middle is that of an operand, or of the whole
    expression: it reaches from where the first token of the operand begins to where the last one
    ends. -/
structure IsOperand (source before operand after : String) : Prop where
  append : before ++ operand ++ after = source
  covers : ∃ (e f : Sentence) (mid : String), Derives .expr (scan source).body e ∧ f.Within e ∧
    f.first.position = .behind before.toList ∧
      f.last.position = .behind mid.toList ∧ mid ++ f.last.lexeme = before ++ operand

/-- A text with parentheses around one of its parts. -/
def enclosed (before operand after : String) : String := before ++ "(" ++ operand ++ ")" ++ after

/-- How parentheses are spelled. -/
def openingSpelling : Kind × String := (.delimiter .leftParen, "(")

@[inherit_doc openingSpelling]
def closingSpelling : Kind × String := (.delimiter .rightParen, ")")

/-- A text is made of pieces around some tokens: one that spells the tokens before these, a gap, one
    that spells them, one that spells the tokens behind them, and a last gap. -/
structure Pieces (us ts vs : List (Kind × String)) (before gap middle after last : List Char) :
    Prop where
  before : Spells us before (gap ++ (middle ++ (after ++ last)))
  gap : Gap gap (middle ++ (after ++ last))
  opens : ¬ EndsLine (middle ++ (after ++ last))
  middle : Spells ts middle (after ++ last)
  after : Spells vs after last
  last : Gap last []

/-- Parentheses at both ends of the piece in the middle are scanned as such, and else nothing
    changes. -/
theorem Pieces.enclose {us ts vs : List (Kind × String)} {before gap middle after last : List Char}
    (h : Pieces us ts vs before gap middle after last) :
    Spells (us ++ (openingSpelling :: (ts ++ closingSpelling :: vs)))
      (before ++ (gap ++ ['('] ++ (middle ++ ([] ++ [')'] ++ after)))) last := by
  have hclosing : Spells (closingSpelling :: vs) ([] ++ [')'] ++ after) last :=
    .cons .nil .closing h.after
  have hmiddle : Spells ts middle ([] ++ [')'] ++ after ++ last) :=
    h.middle.of_takesPlaceOf (.inr (.inr rfl))
  have hopening : Spells (openingSpelling :: (ts ++ closingSpelling :: vs))
      (gap ++ ['('] ++ (middle ++ ([] ++ [')'] ++ after))) last :=
    .cons (h.gap.of_not_endsLine h.opens _) .opening (hmiddle.append hclosing)
  refine (h.before.of_takesPlaceOf ?_).append hopening
  -- The opening parenthesis stands where the gap, or the token behind it, was before.
  rw [List.append_assoc, List.append_assoc]
  exact TakesPlaceOf.append (.inr (.inl rfl)) gap

/-- A source text that spells tokens up to a last gap is scanned to these. -/
theorem Spells.spelling_scan {spellings : List (Kind × String)} {text last : List Char}
    (h : Spells spellings text last) (hlast : Gap last []) {source : String}
    (hsource : source.toList = text ++ last) :
    (scan source).body.map Token.spelling = spellings := by
  obtain ⟨ts, hgives, hts⟩ := h.exists_gives .start
  rw [← hsource] at hgives
  show (Cursor.scan ⟨source.toList, .start⟩).body.map Token.spelling = _
  rw [hgives.scan_body, Cursor.scan_body_of_gap hlast, List.append_nil]
  exact hts

/-- A source text of arithmetic tokens spells these up to a last gap. -/
theorem exists_spells_scan {source : String}
    (harith : ∀ t ∈ (scan source).body, t.kind.IsArithmetic) :
    ∃ text last, source.toList = text ++ last ∧
      Spells ((scan source).body.map Token.spelling) text last ∧ Gap last [] := by
  obtain ⟨c, hgives, hbody⟩ := Cursor.exists_gives_of_scan_body (List.append_nil _).symm
  have hend := Cursor.gap_of_scan_body_eq_nil hbody
  obtain ⟨text, htext, -, hspells⟩ := hgives.exists_spells harith hend.stops_point
  exact ⟨text, c.text, htext, hspells, hend⟩

/-- A source text of arithmetic tokens is made of pieces around those of an operand, and its first
    and last token tell where the operand begins and ends. -/
theorem exists_pieces {source : String} {us vs : List Token} {f : Sentence}
    (hbody : (scan source).body = us ++ f.tokens ++ vs)
    (harith : ∀ t ∈ (scan source).body, t.kind.IsArithmetic) :
    ∃ before gap middle after last inner,
      source.toList = before ++ (gap ++ (middle ++ (after ++ last))) ∧
      Pieces (us.map Token.spelling) (f.tokens.map Token.spelling) (vs.map Token.spelling)
        before gap middle after last ∧
      f.first.position = .behind (before ++ gap) ∧
      f.last.position = .behind (before ++ gap ++ inner) ∧
      middle = inner ++ f.last.lexeme.toList := by
  rw [hbody, List.forall_mem_append, List.forall_mem_append] at harith
  rw [List.append_assoc] at hbody
  obtain ⟨c₁, hus, hbody₁⟩ := Cursor.exists_gives_of_scan_body hbody
  obtain ⟨c₂, hfs, hbody₂⟩ := Cursor.exists_gives_of_scan_body hbody₁
  obtain ⟨c₃, hvs, hbody₃⟩ := Cursor.exists_gives_of_scan_body ((List.append_nil vs).symm ▸ hbody₂)
  obtain ⟨ts, hfirst⟩ := f.exists_tokens_eq_cons
  obtain ⟨ts', hlast⟩ := f.exists_tokens_eq_concat
  have hend := Cursor.gap_of_scan_body_eq_nil hbody₃
  have hpoint₃ := hend.stops_point
  -- From the last piece to the first, each ends where the next one begins.
  obtain ⟨after, hafter, -, hspells₃⟩ := hvs.exists_spells harith.2 hpoint₃
  have hpoint₂ := hvs.stops_point harith.2 hpoint₃
  have hfs' : Cursor.Gives c₁.skipGap f.tokens c₂ :=
    hfs.of_token_eq (by rw [hfirst]; exact List.cons_ne_nil _ _) c₁.token_skipGap
  obtain ⟨middle, hmiddle, -, hspells₂⟩ := hfs'.exists_spells harith.1.2 hpoint₂
  have hpoint₁ := hfs.stops_point harith.1.2 hpoint₂
  obtain ⟨before, hbefore, hposition, hspells₁⟩ := hus.exists_spells harith.1.1 hpoint₁
  have hstart : c₁.skipGap.position = .behind (before ++ c₁.gap) := by
    rw [Cursor.skipGap_position, hposition, Position.behind_append, ← Position.after_start]
    rfl
  obtain ⟨hne, htoken⟩ := (hfirst ▸ hfs).token_eq
  obtain ⟨ch, cs, hs⟩ := Cursor.exists_skipGap_eq_of_ne_eof (htoken ▸ hne)
  obtain ⟨inner, hinner, hlastpos⟩ := (hlast ▸ hfs').exists_last (hlast ▸ harith.1.2) hpoint₂
  have hgap := c₁.longestGap_skipGap
  rw [hafter] at hmiddle hspells₂ hinner
  rw [hmiddle] at hgap
  refine ⟨before, c₁.gap, middle, after, c₃.text, inner, ?_, ?_, ?_, ?_, ?_⟩
  · rw [hgap.append]
    exact hbefore
  · refine ⟨?_, hgap.isGap, hmiddle ▸ Cursor.not_endsLine_skipGap hs, hspells₂, hspells₃, hend⟩
    rw [hgap.append]
    exact hspells₁
  · rw [← htoken, Cursor.position_token, hstart]
  · rw [hlastpos, hstart, Position.behind_append (before ++ c₁.gap)]
  · exact List.append_cancel_right (hmiddle.symm.trans hinner)

/-- The tokens of a source text with parentheses around an operand are those of the text, and the
    parentheses around the tokens of the operand. -/
theorem spelling_enclosed {source before operand after mid : String} {us vs : List Token}
    {f : Sentence} (happend : before ++ operand ++ after = source)
    (hbody : (scan source).body = us ++ f.tokens ++ vs)
    (harith : ∀ t ∈ (scan source).body, t.kind.IsArithmetic)
    (hfirst : f.first.position = .behind before.toList)
    (hlast : f.last.position = .behind mid.toList)
    (hend : mid ++ f.last.lexeme = before ++ operand) :
    (scan (enclosed before operand after)).body.map Token.spelling
      = us.map Token.spelling
        ++ (openingSpelling :: (f.tokens.map Token.spelling
          ++ closingSpelling :: vs.map Token.spelling)) := by
  obtain ⟨before', gap, middle, after', last, inner, hsource, hpieces, hfirst', hlast', hmiddle⟩ :=
    exists_pieces hbody harith
  have htext : before.toList ++ (operand.toList ++ after.toList) = source.toList := by
    rw [← happend, String.toList_append, String.toList_append, List.append_assoc]
  have hmid : mid.toList ++ f.last.lexeme.toList = before.toList ++ operand.toList := by
    rw [← String.toList_append, hend, String.toList_append]
  -- A position tells what stands before it, so the text is cut where the pieces are.
  have hbefore : before.toList = before' ++ gap := by
    refine Position.behind_inj ⟨_, htext⟩ ?_ (hfirst.symm.trans hfirst')
    exact ⟨middle ++ (after' ++ last), by rw [hsource, List.append_assoc]⟩
  have hinner : mid.toList = before' ++ gap ++ inner := by
    have hprefix : mid.toList <+: source.toList := by
      refine ⟨f.last.lexeme.toList ++ after.toList, ?_⟩
      rw [← List.append_assoc, hmid, List.append_assoc, htext]
    refine Position.behind_inj hprefix ?_ (hlast.symm.trans hlast')
    refine ⟨f.last.lexeme.toList ++ (after' ++ last), ?_⟩
    simp only [hsource, hmiddle, List.append_assoc]
  have hoperand : operand.toList = middle := by
    rw [hinner, hbefore, List.append_assoc, ← hmiddle] at hmid
    exact (List.append_cancel_left hmid).symm
  have hafter : after.toList = after' ++ last := by
    rw [hsource, hbefore, hoperand, List.append_assoc] at htext
    exact List.append_cancel_left (List.append_cancel_left (List.append_cancel_left htext))
  refine hpieces.enclose.spelling_scan hpieces.last ?_
  simp [enclosed, hbefore, hoperand, hafter]

/-- With parentheses around all of a source text, the closing one may stand in a comment. Else the
    tokens are those of the text, and the parentheses around them. -/
theorem spelling_enclosed_whole {source : String}
    (harith : ∀ t ∈ (scan source).body, t.kind.IsArithmetic) :
    (scan ("(" ++ source ++ ")")).body.map Token.spelling
        = openingSpelling :: ((scan source).body.map Token.spelling ++ [closingSpelling]) ∨
      (scan ("(" ++ source ++ ")")).body.map Token.spelling
        = openingSpelling :: (scan source).body.map Token.spelling := by
  obtain ⟨text, last, htext, hspells, hlast⟩ := exists_spells_scan harith
  generalize (scan source).body.map Token.spelling = spellings at hspells
  have hsource : ("(" ++ source ++ ")").toList = '(' :: (text ++ (last ++ [')'])) := by
    simp [htext]
  have hplace : TakesPlaceOf (last ++ [')']) (last ++ []) := .append (.inr (.inr rfl)) last
  rw [List.append_nil] at hplace
  have hbefore := hspells.of_takesPlaceOf hplace
  -- The parenthesis is a token behind the last gap, or belongs to a comment at its end.
  rcases hlast.outside_or_inside (show ')' ≠ '\n' by decide) with hout | hin
  · left
    have hclosing : Spells [closingSpelling] (last ++ [')'] ++ []) [] := .cons hout .closing .nil
    have hinner : Spells spellings text (last ++ [')'] ++ [] ++ []) := by
      rw [List.append_nil, List.append_nil]
      exact hbefore
    have hall : Spells (openingSpelling :: (spellings ++ [closingSpelling]))
        ([] ++ ['('] ++ (text ++ (last ++ [')'] ++ []))) [] :=
      .cons .nil .opening (hinner.append hclosing)
    exact hall.spelling_scan .nil (by simp [htext])
  · right
    have hall : Spells (openingSpelling :: spellings) ([] ++ ['('] ++ text) (last ++ [')']) :=
      .cons .nil .opening hbefore
    exact hall.spelling_scan hin (by simp [htext])

/-! ### Trees -/

/-- The grammar gives a source text an arithmetic tree. -/
def IsTreeOf (source : String) (x : Expr Float) : Prop :=
  ∃ e, Derives .expr (scan source).body e ∧ e.expr? = some x

/-- A compiled text has a tree, and its code is that of the tree. -/
theorem exists_isTreeOf_of_compile {source : String} {chunk : Chunk}
    (h : compile source = .ok chunk) :
    ∃ x, IsTreeOf source x ∧ x.literals.length ≤ constantMax ∧ chunk.IsCodeOf x := by
  obtain ⟨-, e, x, d, -, hx, hfit, hcode⟩ := exists_isCodeOf_of_compile h
  exact ⟨x, ⟨e, d, hx⟩, hfit, hcode⟩

/-- A source text has at most one tree. -/
theorem IsTreeOf.unique {source : String} {x y : Expr Float} (h : IsTreeOf source x)
    (h' : IsTreeOf source y) : x = y := by
  obtain ⟨e, d, hx⟩ := h
  obtain ⟨e', d', hy⟩ := h'
  obtain rfl := d.unique d'
  exact Option.some.inj (hx.symm.trans hy)

/-- A sentence has as many closing parentheses as opening ones. -/
theorem Derives.count_paren_eq {c : Nonterminal} {ts : List Token} {e : Sentence}
    (d : Derives c ts e) :
    (ts.map Token.kind).count (.delimiter .leftParen)
      = (ts.map Token.kind).count (.delimiter .rightParen) := by
  induction d with
  | number hk => simp [hk]
  | group ho _ hp ih => simp [ho, hp, ih]
  | primary _ ih => exact ih
  | negate hk _ ih => simp [hk, ih]
  | unary _ ih => exact ih
  | term _ ih => exact ih
  | @binary op _ _ _ _ _ _ hm _ ihl ihr => cases op <;> simp [hm, BinaryOp.kind, ihl, ihr]

/-- A source text with parentheses around all of it, or around one of its operands. -/
inductive Encloses (source : String) : String → Prop where
  | whole : Encloses source ("(" ++ source ++ ")")
  | operand {before operand after : String} :
      IsOperand source before operand after → Encloses source (enclosed before operand after)

namespace IsTreeOf

variable {source source' : String} {x : Expr Float}

/-- Tokens that are spelled like those of a sentence make a text with the tree of the sentence. -/
theorem of_spelling_eq {ts : List Token} {e : Sentence} (d : Derives .expr ts e)
    (hx : e.expr? = some x)
    (h : (scan source').body.map Token.spelling = ts.map Token.spelling) : IsTreeOf source' x := by
  obtain ⟨e', d', hx'⟩ := d.of_spelling_eq h
  exact ⟨e', d', hx'.trans hx⟩

/-- Parentheses around all of a text leave its tree as it is. If a comment hides the closing one,
    the text does not compile. -/
theorem whole (h : IsTreeOf source x) {chunk : Chunk}
    (hok : compile ("(" ++ source ++ ")") = .ok chunk) : IsTreeOf ("(" ++ source ++ ")") x := by
  obtain ⟨e, d, hx⟩ := h
  rcases spelling_enclosed_whole d.isArithmetic with hboth | hopening
  · have henclosed := d.enclose (o := ⟨.delimiter .leftParen, "(", .start⟩)
      (p := ⟨.delimiter .rightParen, ")", .start⟩) rfl rfl
    refine of_spelling_eq henclosed hx ?_
    rw [hboth, List.map_append]
    rfl
  · -- The text would have one opening parenthesis more than closing ones.
    obtain ⟨-, e', -, d', -⟩ := exists_isCodeOf_of_compile hok
    have hkinds : (scan ("(" ++ source ++ ")")).body.map Token.kind
        = .delimiter .leftParen :: (scan source).body.map Token.kind := by
      have hfst := congrArg (List.map Prod.fst) hopening
      simpa [Function.comp_def, Token.spelling, openingSpelling] using hfst
    have hcount := d'.count_paren_eq
    rw [hkinds, List.count_cons_self, List.count_cons_of_ne (by decide), d.count_paren_eq] at hcount
    omega

/-- So do parentheses around an operand. -/
theorem operand (h : IsTreeOf source x) {before operand after : String}
    (hoperand : IsOperand source before operand after) :
    IsTreeOf (enclosed before operand after) x := by
  obtain ⟨e, d, hx⟩ := h
  obtain ⟨e', f, mid, d', hf, hfirst, hlast, hend⟩ := hoperand.covers
  obtain rfl := d'.unique d
  obtain ⟨us, vs, hbody, henclosed⟩ := d.enclosable_of_within hf
  obtain ⟨e₁, d₁, hx₁⟩ := henclosed ⟨.delimiter .leftParen, "(", .start⟩
    ⟨.delimiter .rightParen, ")", .start⟩ rfl rfl
  refine of_spelling_eq d₁ (hx₁.trans hx) ?_
  rw [spelling_enclosed hoperand.append hbody d.isArithmetic hfirst hlast hend]
  simp [Token.spelling, openingSpelling, closingSpelling]

/-- Redundant parentheses leave the tree of a text as it is, as long as the text compiles. -/
theorem of_encloses (h : IsTreeOf source x) (hencloses : Encloses source source') {chunk : Chunk}
    (hok : compile source' = .ok chunk) : IsTreeOf source' x := by
  cases hencloses with
  | whole => exact h.whole hok
  | operand hoperand => exact h.operand hoperand

end IsTreeOf

/-- **Bytecode and tree determine each other.** If two source texts compile, both have trees, and
    their chunks have the same code and, bit by bit, the same constants exactly if the trees are the
    same. So if one is the other with parentheses around all of it or around an operand, the chunks
    are the same. -/
theorem compile_eq_iff_tree_eq {source source' : String} {chunk chunk' : Chunk}
    (h : compile source = .ok chunk) (h' : compile source' = .ok chunk') :
    (∃ x, IsTreeOf source x) ∧ (∃ x', IsTreeOf source' x') ∧
      (∀ x x', IsTreeOf source x → IsTreeOf source' x' →
        (chunk.code = chunk'.code ∧
          chunk.constants.map Float.toBits = chunk'.constants.map Float.toBits ↔ x = x')) ∧
      (Encloses source source' → chunk' = chunk) := by
  obtain ⟨x, hx, hfit, hcode⟩ := exists_isTreeOf_of_compile h
  obtain ⟨x', hx', hfit', hcode'⟩ := exists_isTreeOf_of_compile h'
  refine ⟨⟨x, hx⟩, ⟨x', hx'⟩, ?_, ?_⟩
  · intro y y' hy hy'
    obtain rfl := hy.unique hx
    obtain rfl := hy'.unique hx'
    exact hcode.eq_iff hcode' hfit hfit'
  · intro hencloses
    obtain rfl := (hx.of_encloses hencloses h').unique hx'
    exact hcode'.eq_of_tree_eq hcode

/-- The product in `1 - 2 * 3`. -/
def sampleProduct : Sentence :=
  .binary .mul (.number ⟨.number, "2", ⟨1, 5⟩⟩) ⟨.operator .star false, "*", ⟨1, 7⟩⟩
    (.number ⟨.number, "3", ⟨1, 9⟩⟩)

/-- It is an operand of the difference, from the fifth character on. -/
theorem isOperand_sampleProduct : IsOperand "1 - 2 * 3" "1 - " "2 * 3" "" where
  append := by decide +kernel
  covers := by
    have hbody : (scan "1 - 2 * 3").body
        = [⟨.number, "1", ⟨1, 1⟩⟩] ++ ⟨.operator .minus false, "-", ⟨1, 3⟩⟩
          :: ([⟨.number, "2", ⟨1, 5⟩⟩] ++ ⟨.operator .star false, "*", ⟨1, 7⟩⟩
            :: [⟨.number, "3", ⟨1, 9⟩⟩]) := by
      decide +kernel
    have hproduct : Derives BinaryOp.sub.rightNonterminal _ sampleProduct :=
      @Derives.binary .mul _ _ _ _ _ (.unary (.primary (.number rfl))) rfl (.primary (.number rfl))
    refine ⟨.binary .sub (.number ⟨.number, "1", ⟨1, 1⟩⟩) ⟨.operator .minus false, "-", ⟨1, 3⟩⟩
      sampleProduct, sampleProduct, "1 - 2 * ", ?_, .right .whole, ?_, ?_, ?_⟩
    · rw [hbody]
      exact @Derives.binary .sub _ _ _ _ _ (.term (.unary (.primary (.number rfl)))) rfl hproduct
    · decide +kernel
    · decide +kernel
    · decide +kernel

/-- The parentheses in `1 - (2 * 3)` are redundant. -/
theorem compile_eq_iff_tree_eq_product :
    ∃ chunk, compile "1 - 2 * 3" = .ok chunk ∧ compile "1 - (2 * 3)" = .ok chunk := by
  have hok : ∀ source, (compileInto .empty source).diagnostics.isEmpty = true →
      compile source = .ok (compileInto .empty source).chunk := fun _ hnil => if_pos hnil
  have h := hok "1 - 2 * 3" (by decide +kernel)
  have h' := hok "1 - (2 * 3)" (by decide +kernel)
  have hsame := (compile_eq_iff_tree_eq h h').2.2.2 (.operand isOperand_sampleProduct)
  exact ⟨_, h, hsame ▸ h'⟩

end Abacus
