import Abacus.Proofs.Preservation
import Abacus.Proofs.Spelling

namespace Abacus

/-!
# Printing an expression and compiling it

An expression is printed as a formula, with parentheses around every operation or only where they
are needed. Either way its text compiles to code that works out the value of the expression.

* `Formula` — an expression as it is written; `Formula.text` is the text, and `Formula.level` tells
  how deep it nests.
* `Formula.Proper` — operands that bind too loosely are in parentheses.
* `Printer.print` — the two ways to print an expression; both are proper and keep the tree.
* `Formula.Proper.exists_means_scan` — the tokens of a proper formula are a sentence with its tree.
* `compile_print` — what this means for running what was printed.
-/

/-! ### Numerals as literals -/

/-- A text that stands for a number. -/
structure Numeral where
  text : String
  isNumeral : IsNumeral text.toList

/-- The number that a numeral stands for. -/
def Numeral.value (n : Numeral) : Float :=
  (Literal.read? n.text).get (Option.isSome_iff_exists.2 n.isNumeral.exists_read?)

/-- A numeral is read as its value. -/
theorem Numeral.read?_text (n : Numeral) : Literal.read? n.text = some n.value :=
  (Option.some_get _).symm

/-- The mark that spells an operator. -/
def BinaryOp.mark : BinaryOp → Operator
  | add => .plus
  | sub => .minus
  | mul => .star
  | div => .slash

/-- The token of an operator is its mark without an equals sign. -/
theorem BinaryOp.kind_eq (op : BinaryOp) : op.kind = .operator op.mark false := by
  cases op <;> rfl

/-! ### Formulas -/

/-- An expression as it is written, with its parentheses. -/
inductive Formula where
  | number (n : Numeral)
  | group (body : Formula)
  | negate (operand : Formula)
  | binary (op : BinaryOp) (left right : Formula)

namespace Formula

/-- The text of a formula. Single spaces stand around operators with two operands, and nowhere
    else. -/
def text : Formula → String
  | number n => n.text
  | group body => "(" ++ body.text ++ ")"
  | negate operand => "-" ++ operand.text
  | binary op left right =>
    left.text ++ " " ++ String.singleton op.mark.char ++ " " ++ right.text

/-- How deep a formula nests: a parenthesised body, the operand of a sign and a right operand lie
    one level deeper than what holds them. -/
def level : Formula → Nat
  | number _ => 1
  | group body => 1 + body.level
  | negate operand => 1 + operand.level
  | binary _ left right => max left.level (1 + right.level)

/-- The expression that a formula stands for. -/
def tree : Formula → Expr Numeral
  | number n => .number n
  | group body => body.tree
  | negate operand => .negate operand.tree
  | binary op left right => .binary op left.tree right.tree

/-- The tightest nonterminal that a formula can be read in. -/
def nonterminal : Formula → Nonterminal
  | number _ => .primary
  | group _ => .primary
  | negate _ => .unary
  | binary op _ _ => op.nonterminal

/-- Every operand binds as tightly as its place asks. -/
def Proper : Formula → Prop
  | number _ => True
  | group body => body.Proper
  | negate operand => operand.Proper ∧ .unary ≤ operand.nonterminal.binding
  | binary op left right =>
    (left.Proper ∧ op.binding ≤ left.nonterminal.binding) ∧
      right.Proper ∧ op.binding.next ≤ right.nonterminal.binding

/-- A formula, in parentheses if a condition holds. -/
def groupIf (condition : Prop) [Decidable condition] (f : Formula) : Formula :=
  if condition then group f else f

section

variable (condition : Prop) [Decidable condition] (f : Formula)

/-- Parentheses do not change the tree of a formula. -/
@[simp] theorem tree_groupIf : (f.groupIf condition).tree = f.tree := by
  by_cases h : condition
  · rw [groupIf, if_pos h]
    rfl
  · rw [groupIf, if_neg h]

theorem proper_groupIf (h : f.Proper) : (f.groupIf condition).Proper := by
  by_cases hc : condition
  · rw [groupIf, if_pos hc]
    exact h
  · rw [groupIf, if_neg hc]
    exact h

/-- In parentheses, a formula binds tightest. -/
theorem le_binding_groupIf {p : Precedence} (hp : p ≤ .primary)
    (h : ¬ condition → p ≤ f.nonterminal.binding) :
    p ≤ (f.groupIf condition).nonterminal.binding := by
  by_cases hc : condition
  · rw [groupIf, if_pos hc]
    exact hp
  · rw [groupIf, if_neg hc]
    exact h hc

end

end Formula

/-! ### Two printers -/

/-- How tightly the outermost operation of an expression binds. -/
def Expr.binding {α : Type} : Expr α → Precedence
  | number _ => .primary
  | negate _ => .unary
  | binary op _ _ => op.binding

/-- How many parentheses are printed. -/
inductive Printer where
  /-- All operands of signs and all operations on two operands are in parentheses. -/
  | full
  /-- Only what would be read otherwise is in parentheses. -/
  | minimal

namespace Printer

/-- Prints an expression as a formula. With few parentheses, a left operand needs them if its
    operator binds weaker, a right operand also if it binds as tightly, and the operand of a sign
    if it has an operator with two operands. -/
def print : Printer → Expr Numeral → Formula
  | _, .number n => .number n
  | full, .negate e => .negate (.group (full.print e))
  | minimal, .negate e => .negate ((minimal.print e).groupIf (e.binding < .unary))
  | full, .binary op l r => .group (.binary op (full.print l) (full.print r))
  | minimal, .binary op l r =>
    .binary op ((minimal.print l).groupIf (l.binding < op.binding))
      ((minimal.print r).groupIf (r.binding ≤ op.binding))

/-- Printing keeps the expression. -/
@[simp] theorem tree_print (printer : Printer) (e : Expr Numeral) :
    (printer.print e).tree = e := by
  induction e with
  | number n => cases printer <;> rfl
  | negate e ih => cases printer <;> simp [print, Formula.tree, ih]
  | binary op l r ihl ihr => cases printer <;> simp [print, Formula.tree, ihl, ihr]

/-- With the fewest parentheses, a tree is written as tightly as it binds. -/
theorem binding_print_minimal (e : Expr Numeral) :
    (minimal.print e).nonterminal.binding = e.binding := by
  cases e with
  | number n => rfl
  | negate e => rfl
  | binary op l r => exact op.binding_nonterminal

/-- With all parentheses, every tree is written as an operand of a sign. -/
theorem unary_le_binding_print_full (e : Expr Numeral) :
    .unary ≤ (full.print e).nonterminal.binding := by
  have hprimary : Precedence.unary ≤ .primary := by decide
  cases e with
  | number n => exact hprimary
  | negate e => exact Nat.le_refl _
  | binary op l r => exact hprimary

/-- What is printed with few parentheses has those that it needs. -/
theorem proper_print_minimal (e : Expr Numeral) : (minimal.print e).Proper := by
  induction e with
  | number n => trivial
  | negate e ih =>
    refine ⟨Formula.proper_groupIf _ _ ih, Formula.le_binding_groupIf _ _ (by decide) ?_⟩
    intro hbinding
    rw [binding_print_minimal]
    exact (Precedence.not_lt _ _).1 hbinding
  | binary op l r ihl ihr =>
    refine ⟨⟨Formula.proper_groupIf _ _ ihl, Formula.le_binding_groupIf _ _ ?_ ?_⟩,
      Formula.proper_groupIf _ _ ihr, Formula.le_binding_groupIf _ _ ?_ ?_⟩
    · cases op <;> decide
    · intro hbinding
      rw [binding_print_minimal]
      exact (Precedence.not_lt _ _).1 hbinding
    · cases op <;> decide
    · intro hbinding
      rw [binding_print_minimal, ← Precedence.not_lt, op.lt_next_iff]
      exact hbinding

/-- So has what is printed with all parentheses. -/
theorem proper_print_full (e : Expr Numeral) : (full.print e).Proper := by
  induction e with
  | number n => trivial
  | negate e ih => exact ⟨ih, (by decide : Precedence.unary ≤ .primary)⟩
  | binary op l r ihl ihr =>
    have hop : op.binding ≤ .unary := by cases op <;> decide
    have hnext : op.binding.next ≤ .unary := by cases op <;> decide
    exact ⟨⟨ihl, Nat.le_trans hop (unary_le_binding_print_full l)⟩,
      ihr, Nat.le_trans hnext (unary_le_binding_print_full r)⟩

/-- Either printer puts parentheses wherever the grammar needs them. -/
theorem proper_print (printer : Printer) (e : Expr Numeral) : (printer.print e).Proper := by
  cases printer with
  | full => exact proper_print_full e
  | minimal => exact proper_print_minimal e

end Printer

/-! ### The tokens of a formula -/

namespace Formula

/-- Some tokens are a sentence that nests as deep as a formula and has its tree. -/
structure Means (f : Formula) (ts : List Token) (e : Sentence) : Prop where
  derives : Derives f.nonterminal ts e
  level_eq : e.level = f.level
  expr?_eq : e.expr? = some (f.tree.map Numeral.value)

namespace Means

variable {f l r : Formula} {ts ls rs : List Token} {e x y : Sentence}

/-- The token of a number means the number. -/
theorem number {n : Numeral} {t : Token} (hk : t.kind = .number) (hl : t.lexeme = n.text) :
    (number n).Means [t] (.number t) where
  derives := .number hk
  level_eq := rfl
  expr?_eq := by
    rw [Sentence.expr?, hl, n.read?_text]
    rfl

/-- A formula means the same between parentheses. -/
theorem group {o c : Token} (ho : o.kind = .delimiter .leftParen) (h : f.Means ts e)
    (hc : c.kind = .delimiter .rightParen) : (group f).Means (o :: ts ++ [c]) (.group o e c) where
  derives := .group ho h.derives.toExpr hc
  level_eq := congrArg (1 + ·) h.level_eq
  expr?_eq := h.expr?_eq

/-- A sign and what it stands before mean the negated tree, if that binds tightly enough. -/
theorem negate {t : Token} (ht : t.kind = .operator .minus false) (h : f.Means ts e)
    (hb : .unary ≤ f.nonterminal.binding) : (negate f).Means (t :: ts) (.negate t e) where
  derives := .negate ht (h.derives.loosen hb)
  level_eq := congrArg (1 + ·) h.level_eq
  expr?_eq := by
    rw [Sentence.expr?, h.expr?_eq]
    rfl

/-- An operator between two formulas means their join, if both bind tightly enough. -/
theorem binary {op : BinaryOp} {m : Token} (hl : l.Means ls x)
    (hlb : op.binding ≤ l.nonterminal.binding) (hm : m.kind = op.kind) (hr : r.Means rs y)
    (hrb : op.binding.next ≤ r.nonterminal.binding) :
    (binary op l r).Means (ls ++ m :: rs) (.binary op x m y) where
  derives := by
    rw [← op.binding_nonterminal] at hlb
    rw [← op.binding_rightNonterminal] at hrb
    exact .binary (hl.derives.loosen hlb) hm (hr.derives.loosen hrb)
  level_eq := by rw [Sentence.level, level, hl.level_eq, hr.level_eq]
  expr?_eq := by
    rw [Sentence.expr?, hl.expr?_eq, hr.expr?_eq]
    rfl

theorem ne_nil (h : f.Means ts e) : ts ≠ [] := by
  obtain ⟨t, us, rfl, -⟩ := h.derives.exists_starts
  exact List.cons_ne_nil t us

end Means

/-! ### Scanning a formula -/

/-- What can stand behind a formula: nothing, a space or a closing parenthesis. -/
def MayFollow (rest : List Char) : Prop := ∀ c ∈ rest.head?, c = ' ' ∨ c = ')'

/-- What can stand behind a formula goes on with no class that has neither a space nor a closing
    parenthesis. -/
theorem MayFollow.stops {rest : List Char} (h : MayFollow rest) {p : Char → Bool}
    (hspace : p ' ' = false) (hclosing : p ')' = false) : Stops p rest := by
  intro c hc
  rcases h c hc with rfl | rfl
  · exact hspace
  · exact hclosing

theorem mayFollow_nil : MayFollow [] := by
  intro c hc
  cases hc

theorem mayFollow_space (more : List Char) : MayFollow (' ' :: more) := by
  intro c hc
  exact .inl (Option.mem_some_iff.1 hc).symm

theorem mayFollow_closing (more : List Char) : MayFollow (')' :: more) := by
  intro c hc
  exact .inr (Option.mem_some_iff.1 hc).symm

/-- Wherever a formula stands before `rest`, its tokens are a sentence with its tree, and `rest` is
    left. -/
def ScannedBefore (f : Formula) (rest : List Char) : Prop :=
  ∀ position, ∃ ts e after, f.Means ts e ∧
    Cursor.Gives ⟨f.text.toList ++ rest, position⟩ ts ⟨rest, after⟩

open Cursor (gives_delimiter gives_operator gives_numeral)

variable {f l r : Formula} {rest : List Char}

/-- A numeral is scanned as one number. -/
theorem scannedBefore_number (n : Numeral) (hrest : MayFollow rest) :
    (number n).ScannedBefore rest := by
  intro position
  have hgives := gives_numeral n.isNumeral (hrest.stops (by decide) (by decide))
    (hrest.stops (by decide) (by decide)) position
  exact ⟨_, _, _, .number rfl String.ofList_toList, hgives⟩

/-- How a formula between parentheses begins and ends. -/
theorem text_group_append (f : Formula) (rest : List Char) :
    (group f).text.toList ++ rest = '(' :: (f.text.toList ++ ')' :: rest) := by
  simp [text]

/-- How a negated formula begins. -/
theorem text_negate_append (f : Formula) (rest : List Char) :
    (negate f).text.toList ++ rest = '-' :: (f.text.toList ++ rest) := by
  simp [text]

/-- How two formulas and the operator between them follow each other. -/
theorem text_binary_append (op : BinaryOp) (l r : Formula) (rest : List Char) :
    (binary op l r).text.toList ++ rest
      = l.text.toList ++ ' ' :: op.mark.char :: ' ' :: (r.text.toList ++ rest) := by
  simp [text]

/-- A formula begins with a digit, a parenthesis or a sign, so it joins no equals sign to an
    operator before it. -/
theorem stops_equal_text (f : Formula) (rest : List Char) :
    Stops (· = '=') (f.text.toList ++ rest) := by
  induction f generalizing rest with
  | number n =>
    obtain ⟨c, cs, htext, hc⟩ := n.isNumeral.exists_cons
    rw [text, htext, List.cons_append, stops_cons, decide_eq_false_iff_not]
    rintro rfl
    exact absurd hc (by decide)
  | group body _ =>
    rw [text_group_append, stops_cons]
    rfl
  | negate operand _ =>
    rw [text_negate_append, stops_cons]
    rfl
  | binary op left right ih _ =>
    rw [text_binary_append]
    exact ih _

/-- A formula between parentheses is scanned if the formula is. -/
theorem ScannedBefore.group (h : f.ScannedBefore (')' :: rest)) :
    (group f).ScannedBefore rest := by
  intro position
  obtain ⟨ts, e, after, hmeans, hbody⟩ := h (position.next '(')
  have hopening := gives_delimiter .leftParen (f.text.toList ++ ')' :: rest) position
  have hclosing := gives_delimiter .rightParen rest after
  rw [text_group_append]
  exact ⟨_, _, _, .group rfl hmeans rfl, (hopening.trans hbody).trans hclosing⟩

/-- A negated formula is scanned if the formula is. -/
theorem ScannedBefore.negate (h : f.ScannedBefore rest) (hb : .unary ≤ f.nonterminal.binding) :
    (negate f).ScannedBefore rest := by
  intro position
  obtain ⟨ts, e, after, hmeans, hoperand⟩ := h (position.next '-')
  have hsign := gives_operator .minus (f.stops_equal_text rest) (fun h => absurd h (by decide))
    position
  rw [text_negate_append]
  exact ⟨_, _, _, .negate rfl hmeans hb, hsign.trans hoperand⟩

/-- Two formulas with an operator between them are scanned if both are. -/
theorem ScannedBefore.binary {op : BinaryOp}
    (hl : l.ScannedBefore (' ' :: op.mark.char :: ' ' :: (r.text.toList ++ rest)))
    (hlb : op.binding ≤ l.nonterminal.binding) (hr : r.ScannedBefore rest)
    (hrb : op.binding.next ≤ r.nonterminal.binding) : (binary op l r).ScannedBefore rest := by
  intro position
  obtain ⟨ls, x, before, hlm, hleft⟩ := hl position
  obtain ⟨rs, y, after, hrm, hright⟩ := hr (((before.next ' ').next op.mark.char).next ' ')
  -- The space behind the operator keeps it from going on.
  have hequal : Stops (· = '=') (' ' :: (r.text.toList ++ rest)) := stops_cons.2 rfl
  have hslash : Stops (· = '/') (' ' :: (r.text.toList ++ rest)) := stops_cons.2 rfl
  have hmark := gives_operator op.mark hequal (fun _ => hslash) (before.next ' ')
  have htail := (hmark.behind_blank (List.cons_ne_nil _ _) (by decide)).trans
    (hright.behind_blank hrm.ne_nil (by decide))
  rw [text_binary_append]
  exact ⟨_, _, _, .binary hlm hlb op.kind_eq.symm hrm hrb, hleft.trans htail⟩

/-- A proper formula is scanned wherever it stands before something that may follow it. -/
theorem Proper.scannedBefore (h : f.Proper) (hrest : MayFollow rest) : f.ScannedBefore rest := by
  induction f generalizing rest with
  | number n => exact scannedBefore_number n hrest
  | group body ih => exact (ih h (mayFollow_closing rest)).group
  | negate operand ih => exact (ih h.1 hrest).negate h.2
  | binary op left right ihl ihr =>
    obtain ⟨⟨hl, hlb⟩, hr, hrb⟩ := h
    exact (ihl hl (mayFollow_space _)).binary hlb (ihr hr hrest) hrb

/-- The tokens of a proper formula are a sentence with its tree. -/
theorem Proper.exists_means_scan (h : f.Proper) : ∃ e, f.Means (scan f.text).body e := by
  obtain ⟨ts, e, after, hmeans, hgives⟩ := h.scannedBefore mayFollow_nil .start
  have hbody := hgives.scan_body
  have hend : (Cursor.scan ⟨[], after⟩).body = [] := by
    rw [Cursor.scan_of_eof rfl]
  rw [List.append_nil, hend, List.append_nil] at hbody
  exact ⟨e, hbody ▸ hmeans⟩

/-- Within the limits, a proper formula compiles to code with the value of its tree. -/
theorem Proper.compile_text (h : f.Proper) (hcount : f.tree.literals.length ≤ constantMax)
    (hlevel : f.level ≤ levelMax) :
    ∃ chunk, compile f.text = .ok chunk ∧ run chunk = .ok (f.tree.map Numeral.value).value := by
  obtain ⟨e, hmeans⟩ := h.exists_means_scan
  have hflaws : (scan f.text).flaws = [] :=
    (TokenStream.flaws_eq_nil_iff _).2 hmeans.derives.isError_eq_false
  rw [← hmeans.level_eq] at hlevel
  obtain ⟨hquiet, hcode⟩ := quiet_parse_iff hflaws hmeans.derives.toExpr hlevel hmeans.expr?_eq
  have hfit : (f.tree.map Numeral.value).literals.length ≤ constantMax := by
    rw [Expr.literals_map, List.length_map]
    exact hcount
  exact ⟨_, compile_eq_ok_iff.2 ⟨hquiet.2 hfit, rfl⟩, (hcode.completes hfit).result⟩

end Formula

/-- **What is printed compiles, and runs to the value of the expression.** This holds with all
    parentheses and with few, for every expression with at most as many literals as a chunk has
    room for whose print does not nest too deep. -/
theorem compile_print (printer : Printer) (e : Expr Numeral)
    (hcount : e.literals.length ≤ constantMax) (hlevel : (printer.print e).level ≤ levelMax) :
    ∃ chunk, compile (printer.print e).text = .ok chunk ∧
      run chunk = .ok (e.map Numeral.value).value := by
  have h := (printer.proper_print e).compile_text (by rw [printer.tree_print]; exact hcount) hlevel
  rwa [printer.tree_print] at h

/-- Both prints of an expression in which parentheses matter on either side. -/
theorem compile_print_differences :
    ∃ e : Expr Numeral,
      (Printer.full.print e).text = "((8 - (4 - 2.5)) * -(3))" ∧
      (Printer.minimal.print e).text = "(8 - (4 - 2.5)) * -3" ∧
      ∀ printer : Printer, ∃ chunk, compile (printer.print e).text = .ok chunk ∧
        run chunk = .ok (e.map Numeral.value).value := by
  let difference : Expr Numeral := .binary .sub (.number ⟨"4", .inl rfl⟩)
    (.number ⟨"2.5", .inr ⟨['2'], ['5'], rfl, rfl, rfl⟩⟩)
  refine ⟨.binary .mul (.binary .sub (.number ⟨"8", .inl rfl⟩) difference)
    (.negate (.number ⟨"3", .inl rfl⟩)), by decide +kernel, by decide +kernel, ?_⟩
  intro printer
  cases printer with
  | full => exact compile_print .full _ (by decide) (by decide)
  | minimal => exact compile_print .minimal _ (by decide) (by decide)

end Abacus
