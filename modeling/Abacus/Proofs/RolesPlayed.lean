import Abacus.Proofs.CallDepth
import Abacus.Proofs.TokenLog

namespace Abacus

open Abacus.Parser (advance)

/-!
# Every token plays a role that it has

The parser lets a token play a role, and then writes the instruction for it. For most kinds of token
there is none, and numbers could be unreadable; none of this ever happens, on any text.

* `Role.kinds` — the kinds of token that have a role.
* `Action.InPlace before x after` — an action is justified by those around it: a token that plays a
  role was taken last and has this role, and one with which an operand goes on is taken next and
  joins two operands.
* `Reads.inPlace`, `inPlace_parse` — whatever is read, every action is in place.
* `cause_ne_invalidNumber` — whatever is scanned, every number can be read.
* `compileInto_rolesPlayed` — what this means for a source text.
-/

/-! ### Roles -/

/-- The kinds of token that have a role. -/
def Role.kinds : Role → List Kind
  | .grouping => [.delimiter .leftParen]
  | .unary => [.operator .minus false]
  | .binary =>
    [.operator .plus false, .operator .minus false, .operator .star false, .operator .slash false]
  | .number => [.number]

/-- Operators can join two operands. -/
theorem BinaryOp.kind_mem (op : BinaryOp) : op.kind ∈ Role.binary.kinds := by
  cases op <;> decide

/-- There is an instruction for every sign. -/
theorem unaryOpcode?_of_mem {kind : Kind} (h : kind ∈ Role.unary.kinds) :
    unaryOpcode? kind ≠ none := by
  revert kind
  decide

/-- There is an instruction for every operator that joins two operands. -/
theorem binaryOpcode?_of_mem {kind : Kind} (h : kind ∈ Role.binary.kinds) :
    binaryOpcode? kind ≠ none := by
  revert kind
  decide

/-! ### Actions and those around them -/

/-- The token that an action takes. -/
def Action.taken? : Action → Option Token
  | .consume t => some t
  | _ => none

/-- The token that was taken last. -/
def lastTaken? (as : List Action) : Option Token := (as.filterMap Action.taken?).getLast?

/-- What was taken before does not matter if something was taken since. -/
theorem lastTaken?_append {as : List Action} {t : Token} (h : lastTaken? as = some t)
    (before : List Action) : lastTaken? (before ++ as) = some t := by
  unfold lastTaken? at *
  rw [List.filterMap_append, List.getLast?_append, h]
  rfl

/-- Going on takes the token in front. -/
theorem lastTaken?_advance (s : TokenStream) : lastTaken? (advance s).actions = some s.current := by
  have hscan : (Parser.settle s.tail).actions.filterMap Action.taken? = [] := by
    rw [List.filterMap_eq_nil_iff]
    intro a ha
    obtain ⟨t, -, rfl⟩ := List.mem_map.1 ha
    rfl
  show (s.current :: (Parser.settle s.tail).actions.filterMap Action.taken?).getLast? = _
  rw [hscan, List.getLast?_singleton]

/-- An action is justified by those around it. A token plays a role that it has right after it was
    taken, and an operand goes on with the token that is taken next, which joins two operands. -/
def Action.InPlace (before : List Action) (x : Action) (after : List Action) : Prop :=
  match x with
  | .apply role t => lastTaken? before = some t ∧ t.kind ∈ role.kinds
  | .extend t => after.head? = some (.consume t) ∧ (Rule.of t.kind).joins ≠ none
  | _ => True

/-- Every action is justified by those around it. -/
def InPlace (as : List Action) : Prop :=
  ∀ before x after, as = before ++ x :: after → x.InPlace before after

/-- An action stays in place when more happens before and after. -/
theorem Action.InPlace.mono {before after : List Action} {x : Action} (h : x.InPlace before after)
    (earlier later : List Action) : x.InPlace (earlier ++ before) (after ++ later) := by
  cases x with
  | apply role t => exact ⟨lastTaken?_append h.1 earlier, h.2⟩
  | extend t => exact ⟨by rw [List.head?_append, h.1]; rfl, h.2⟩
  | _ => trivial

/-- Is an action in place anywhere? -/
def Action.isFree : Action → Bool
  | .apply _ _ | .extend _ => false
  | _ => true

/-- An action that is free is in place anywhere. -/
theorem Action.inPlace_of_isFree {x : Action} (h : x.isFree = true) (before after : List Action) :
    x.InPlace before after := by
  cases x with
  | apply role t => cases h
  | extend t => cases h
  | _ => trivial

/-- Tokens are taken and scanned anywhere. -/
theorem Action.isFree_of_takes {x : Action} (h : x.takes = true) : x.isFree = true := by
  cases x with
  | apply role t => cases h
  | extend t => cases h
  | _ => rfl

namespace InPlace

variable {as bs : List Action} {x : Action} {s : TokenStream}

theorem append (h : InPlace as) (h' : InPlace bs) : InPlace (as ++ bs) := by
  intro before x after heq
  rcases exists_or_exists_of_append_eq heq with ⟨rest, rfl⟩ | ⟨later, rfl, hbs⟩
  · have hafter : after = rest ++ bs := by simpa using heq.symm
    rw [hafter]
    exact (h before x rest rfl).mono [] bs
  · simpa using (h' later x after hbs).mono as []

/-- An action before a run is in place if the run justifies it. -/
theorem cons (hx : x.InPlace [] as) (h : InPlace as) : InPlace (x :: as) := by
  intro before y after heq
  obtain ⟨rfl, hcons⟩ | ⟨later, rfl, hlater⟩ := List.cons_eq_append_iff.1 heq
  · obtain ⟨rfl, rfl⟩ := List.cons.inj hcons
    exact hx
  · simpa using (h later y after hlater).mono [x] []

/-- An action behind a run is in place if the run justifies it. -/
theorem concat (h : InPlace as) (hx : x.InPlace as []) : InPlace (as ++ [x]) := by
  intro before y after heq
  rcases exists_or_exists_of_append_eq heq with ⟨rest, rfl⟩ | ⟨later, rfl, hlast⟩
  · have hafter : after = rest ++ [x] := by simpa using heq.symm
    rw [hafter]
    exact (h before y rest rfl).mono [] [x]
  · obtain ⟨rfl, hcons⟩ | ⟨_, -, hnil⟩ := List.cons_eq_append_iff.1 hlast
    · obtain ⟨rfl, rfl⟩ := List.cons.inj hcons
      rwa [List.append_nil]
    · simp at hnil

theorem free (h : as.all Action.isFree = true) : InPlace as := by
  rintro before x after rfl
  exact Action.inPlace_of_isFree (List.all_eq_true.1 h x (by simp)) before after

theorem settle (s : TokenStream) : InPlace (Parser.settle s).actions :=
  free (List.all_eq_true.2 fun _ hx => Action.isFree_of_takes (takes_of_mem_settle hx))

theorem advance (s : TokenStream) : InPlace (advance s).actions :=
  free (List.all_eq_true.2 fun _ hx => Action.isFree_of_takes (takes_of_mem_advance hx))

/-- A token that is taken may play a role. -/
theorem apply {role : Role} (hk : s.current.kind ∈ role.kinds) (h : InPlace as) :
    InPlace ((Parser.advance s).actions ++ .apply role s.current :: as) := by
  rw [List.append_cons]
  have hlast : InPlace ((Parser.advance s).actions ++ [.apply role s.current]) :=
    (InPlace.advance s).concat ⟨lastTaken?_advance s, hk⟩
  exact hlast.append h

/-- An operand may go on with a token that joins it to another one. -/
theorem extend (hj : (Rule.of s.current.kind).joins ≠ none)
    (h : InPlace ((Parser.advance s).actions ++ as)) :
    InPlace (.extend s.current :: (Parser.advance s).actions ++ as) :=
  .cons ⟨rfl, hj⟩ h

end InPlace

/-- Whatever part of an expression is read, every action is in place. -/
theorem Reads.inPlace {part : Part} {s s' : TokenStream} {as : List Action}
    (h : Reads part s as s') : InPlace as := by
  induction h with
  | refused => exact .free rfl
  | @missing _ _ s _ =>
    have hfront : InPlace [.enter] := .free rfl
    exact (hfront.append (.advance s)).append (.free rfl)
  | begun _ _ ih₁ ih₂ =>
    have hfront : InPlace [.enter] := .free rfl
    exact ((hfront.append ih₁).append ih₂).append (.free rfl)
  | number hk => exact .apply (by rw [hk]; decide) (.free rfl)
  | negate hk _ ih => exact (InPlace.apply (by rw [hk]; decide) ih).append (.free rfl)
  | @closed _ _ s₁ _ hk _ _ ih =>
    exact (InPlace.apply (by rw [hk]; decide) ih).append (.advance s₁)
  | unclosed hk _ _ ih => exact (InPlace.apply (by rw [hk]; decide) ih).append (.free rfl)
  | done _ => exact .free rfl
  | @more _ _ op s _ _ _ _ hk _ _ _ ih₁ ih₂ =>
    have hjoins : (Rule.of s.current.kind).joins ≠ none := by simp [hk]
    have hright := InPlace.apply (hk ▸ op.kind_mem) ih₁
    exact ((InPlace.extend hjoins hright).append (.free rfl)).append ih₂

/-- Reading a whole stream, every action is in place. -/
theorem inPlace_parse (s : TokenStream) : InPlace (parse s) := by
  obtain ⟨as, s', hreads, hparse⟩ := exists_reads_parse s
  have hend : InPlace (Parser.expect .eof .expectEnd s').actions := by
    by_cases hk : s'.current.kind = .eof
    · rw [Parser.expect_of_eq hk]
      exact .advance s'
    · rw [Parser.expect_of_ne hk]
      exact .free rfl
  rw [hparse]
  exact (((InPlace.settle s).append hreads.inPlace).append hend).append (.free rfl)

/-! ### Numbers -/

/-- About a number that can be read, it is not said that it cannot. -/
theorem Assembly.cause_ne_of_mem_remarks {a : Assembly} {x : Action} {ts : List Token}
    {d : Diagnostic} (hd : d ∈ a.remarks x) (hx : x.InnerTo ts) (hread : Readable ts)
    (hreport : ∀ t, x ≠ .report .invalidNumber t) : d.cause ≠ .grammatical .invalidNumber := by
  cases x with
  | literal t =>
    obtain ⟨value, hv⟩ := hread t hx.1 hx.2
    simp only [remarks, hv, List.mem_append] at hd
    rcases hd with hd | hd
    · split at hd <;> simp_all
    · split at hd <;> simp_all
  | scan t =>
    rw [remarks] at hd
    split at hd <;> simp_all
  | report complaint t =>
    rw [List.mem_singleton.1 hd]
    rintro hcause
    injection hcause with hcause
    exact hreport t (hcause ▸ rfl)
  | _ => cases hd

/-- Whatever the source text is, all its numbers can be read. -/
theorem cause_ne_invalidNumber {chunk : Chunk} {source : String} {d : Diagnostic}
    (hd : d ∈ (compileInto chunk source).diagnostics) :
    d.cause ≠ .grammatical .invalidNumber := by
  obtain ⟨as, hparse, hinner⟩ := exists_parse_eq (scan source)
  rw [diagnostics_compileInto hparse] at hd
  obtain ⟨x, hx, b, hd⟩ := Assembly.exists_mem_remarks hd
  have hread : Readable (scan source).tokens :=
    (readable_scan source).subset List.filter_sublist.subset
  refine Assembly.cause_ne_of_mem_remarks hd (hinner x hx) hread ?_
  rintro t rfl
  have hreport : .report .invalidNumber t ∈ parse (scan source) := by simp [hparse, hx]
  exact absurd (complaint_mem_of_report_parse hreport) (by decide)

/-! ### Source texts -/

/-- **Nothing unforeseen happens, on any text.** No number is said to be unreadable, whatever the
    chunk holds already. A token that acts on one operand was taken last and is a minus, one that
    joins two operands was taken last and is one of the four operators, and so there is an
    instruction for it. An operand goes on only with a token that joins it to another one, which is
    then taken. -/
theorem compileInto_rolesPlayed (chunk : Chunk) (source : String) :
    (∀ d ∈ (compileInto chunk source).diagnostics, d.cause.message ≠ "Invalid number.") ∧
    (∀ before t after, parse (scan source) = before ++ .apply .unary t :: after →
      lastTaken? before = some t ∧ t.kind = .operator .minus false ∧ unaryOpcode? t.kind ≠ none) ∧
    (∀ before t after, parse (scan source) = before ++ .apply .binary t :: after →
      lastTaken? before = some t ∧
        t.kind ∈ [.operator .plus false, .operator .minus false, .operator .star false,
          .operator .slash false] ∧
        binaryOpcode? t.kind ≠ none) ∧
    (∀ before t after, parse (scan source) = before ++ .extend t :: after →
      after.head? = some (.consume t) ∧ (Rule.of t.kind).joins ≠ none) := by
  have hplace := inPlace_parse (scan source)
  refine ⟨?_, ?_, ?_, ?_⟩
  · intro d hd hm
    have hinvalid : d.cause.message = Complaint.invalidNumber.message := hm
    exact cause_ne_invalidNumber hd (cause_eq_of_mem_diagnostics hd hinvalid)
  · intro before t after heq
    obtain ⟨hlast, hkind⟩ := hplace before _ after heq
    exact ⟨hlast, List.mem_singleton.1 hkind, unaryOpcode?_of_mem hkind⟩
  · intro before t after heq
    obtain ⟨hlast, hkind⟩ := hplace before _ after heq
    exact ⟨hlast, hkind, binaryOpcode?_of_mem hkind⟩
  · intro before t after heq
    exact hplace before _ after heq

-- A minus plays both roles.
example :
    (parse (scan "-1-2")).filter (fun x => !x.isFree) =
      [.apply .unary ⟨.operator .minus false, "-", ⟨1, 1⟩⟩,
        .apply .number ⟨.number, "1", ⟨1, 2⟩⟩,
        .extend ⟨.operator .minus false, "-", ⟨1, 3⟩⟩,
        .apply .binary ⟨.operator .minus false, "-", ⟨1, 3⟩⟩,
        .apply .number ⟨.number, "2", ⟨1, 4⟩⟩] := by
  decide +kernel

end Abacus
