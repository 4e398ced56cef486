import Abacus.Decimal.Literal
import Abacus.Proofs.Expr

namespace Abacus

/-!
# The grammar of expressions

An expression is a sum, a sum is made of products, and a product of operands with signs:

    expr    := term (('+' | '-') term)*
    term    := unary (('*' | '/') unary)*
    unary   := '-' unary | primary
    primary := NUMBER | '(' expr ')'

* `Sentence` — a tree with all its tokens, parentheses included.
* `Derives c ts e` — the grammar gives the tokens `ts` the tree `e` in the nonterminal `c`. A
  repetition gathers its operands from the left.
* `Sentence.level` — how deep a tree nests.
* `Sentence.expr?` — the arithmetic tree, with literals read.
* `Sentence.outline` — the actions that a tree stands for; `Derives.eq_of_outline_eq` — it stands
  for no other.
-/

/-- The nonterminals of the grammar, from the loosest to the tightest. -/
inductive Nonterminal where
  | expr
  | term
  | unary
  | primary
  deriving DecidableEq

/-- How tightly the operators bind that a nonterminal repeats. -/
def Nonterminal.binding : Nonterminal → Precedence
  | expr => .term
  | term => .factor
  | unary => .unary
  | primary => .primary

/-- The nonterminal of what an operator makes of its operands. -/
def BinaryOp.nonterminal : BinaryOp → Nonterminal
  | add => .expr
  | sub => .expr
  | mul => .term
  | div => .term

/-- The nonterminal of an operator's right operand. -/
def BinaryOp.rightNonterminal : BinaryOp → Nonterminal
  | add => .term
  | sub => .term
  | mul => .unary
  | div => .unary

@[simp] theorem BinaryOp.binding_nonterminal (op : BinaryOp) :
    op.nonterminal.binding = op.binding := by
  cases op <;> rfl

@[simp] theorem BinaryOp.binding_rightNonterminal (op : BinaryOp) :
    op.rightNonterminal.binding = op.binding.next := by
  cases op <;> rfl

/-- A tree with all its tokens. -/
inductive Sentence where
  | number (token : Token)
  | group (opening : Token) (body : Sentence) (closing : Token)
  | negate (sign : Token) (operand : Sentence)
  | binary (op : BinaryOp) (left : Sentence) (mark : Token) (right : Sentence)

/-- The grammar gives a list of tokens a tree. -/
inductive Derives : Nonterminal → List Token → Sentence → Prop where
  | number {t : Token} : t.kind = .number → Derives .primary [t] (.number t)
  | group {o c : Token} {ts : List Token} {e : Sentence} :
      o.kind = .delimiter .leftParen → Derives .expr ts e → c.kind = .delimiter .rightParen →
        Derives .primary (o :: ts ++ [c]) (.group o e c)
  | primary {ts : List Token} {e : Sentence} : Derives .primary ts e → Derives .unary ts e
  | negate {t : Token} {ts : List Token} {e : Sentence} :
      t.kind = .operator .minus false → Derives .unary ts e →
        Derives .unary (t :: ts) (.negate t e)
  | unary {ts : List Token} {e : Sentence} : Derives .unary ts e → Derives .term ts e
  | term {ts : List Token} {e : Sentence} : Derives .term ts e → Derives .expr ts e
  | binary {op : BinaryOp} {m : Token} {ls rs : List Token} {l r : Sentence} :
      Derives op.nonterminal ls l → m.kind = op.kind → Derives op.rightNonterminal rs r →
        Derives op.nonterminal (ls ++ m :: rs) (.binary op l m r)

namespace Sentence

/-- How deep a tree nests: a parenthesised body, the operand of a sign and a right operand lie one
    level deeper than what holds them, and a left operand lies on the same level. -/
def level : Sentence → Nat
  | number _ => 1
  | group _ body _ => 1 + body.level
  | negate _ operand => 1 + operand.level
  | binary _ left _ right => max left.level (1 + right.level)

/-- The arithmetic tree, if every literal can be read. -/
def expr? : Sentence → Option (Expr Float)
  | number t => (Literal.read? t.lexeme).map .number
  | group _ body _ => body.expr?
  | negate _ operand => operand.expr?.map .negate
  | binary op left _ right => do return .binary op (← left.expr?) (← right.expr?)

/-- The actions that read and write a tree, in order. -/
def outline : Sentence → List Action
  | number t => [.consume t, .literal t]
  | group o body c => .consume o :: body.outline ++ [.consume c]
  | negate s operand => .consume s :: operand.outline ++ [.emit .negate]
  | binary op left m right =>
    left.outline ++ .consume m :: right.outline ++ [.emit op.opcode, .merge]

/-- Every tree has a level. -/
theorem level_pos (e : Sentence) : 0 < e.level := by
  cases e <;> rw [level] <;> omega

end Sentence

/-! ### Nonterminals contain each other -/

/-- What can be read in a tighter nonterminal can be read in a looser one. -/
theorem Derives.loosen {c c' : Nonterminal} {ts : List Token} {e : Sentence} (d : Derives c ts e)
    (h : c'.binding ≤ c.binding) : Derives c' ts e := by
  cases c <;> cases c'
  case term.expr => exact d.term
  case unary.expr => exact d.unary.term
  case unary.term => exact d.unary
  case primary.expr => exact d.primary.unary.term
  case primary.term => exact d.primary.unary
  case primary.unary => exact d.primary
  -- What is left is a nonterminal itself, or one that is tighter.
  all_goals first | exact d | exact absurd h (by decide)

/-- Every phrase is an expression. -/
theorem Derives.toExpr {c : Nonterminal} {ts : List Token} {e : Sentence} (d : Derives c ts e) :
    Derives .expr ts e :=
  d.loosen (by cases c <;> decide)

/-! ### A tree is told by its outline -/

/-- Puts an action of an outline into effect on a stack of tokens and finished trees. -/
def Sentence.rebuild : List (Token ⊕ Sentence) → Action → List (Token ⊕ Sentence)
  | .inl t :: stack, .literal _ => .inr (.number t) :: stack
  | .inr e :: .inl s :: stack, .emit .negate => .inr (.negate s e) :: stack
  | .inr r :: .inl m :: .inr l :: stack, .emit .add => .inr (.binary .add l m r) :: stack
  | .inr r :: .inl m :: .inr l :: stack, .emit .sub => .inr (.binary .sub l m r) :: stack
  | .inr r :: .inl m :: .inr l :: stack, .emit .mul => .inr (.binary .mul l m r) :: stack
  | .inr r :: .inl m :: .inr l :: stack, .emit .div => .inr (.binary .div l m r) :: stack
  | stack, .consume t =>
    match t.kind, stack with
    | .delimiter .rightParen, .inr e :: .inl o :: stack => .inr (.group o e t) :: stack
    | _, _ => .inl t :: stack
  | stack, _ => stack

/-- Going through the outline of a tree puts the tree on top of the stack. -/
theorem Derives.foldl_rebuild {c : Nonterminal} {ts : List Token} {e : Sentence}
    (d : Derives c ts e) (stack : List (Token ⊕ Sentence)) :
    e.outline.foldl Sentence.rebuild stack = .inr e :: stack := by
  induction d generalizing stack with
  | number ht => simp [Sentence.outline, Sentence.rebuild, ht]
  -- The closing parenthesis finds the body on top and the opening one below it.
  | group ho _ hc ih => simp [Sentence.outline, Sentence.rebuild, ho, ih, hc]
  | primary _ ih => exact ih stack
  | negate ht _ ih => simp [Sentence.outline, Sentence.rebuild, ht, ih]
  | unary _ ih => exact ih stack
  | term _ ih => exact ih stack
  | @binary op m ls rs l r _ hm _ ihl ihr =>
    cases op <;>
      simp [Sentence.outline, Sentence.rebuild, ihl, ihr, hm, BinaryOp.kind, BinaryOp.opcode]

/-- Two trees of the grammar with the same outline are the same. -/
theorem Derives.eq_of_outline_eq {c c' : Nonterminal} {ts ts' : List Token} {e e' : Sentence}
    (d : Derives c ts e) (d' : Derives c' ts' e') (h : e.outline = e'.outline) : e = e' := by
  have he := d.foldl_rebuild []
  rw [h, d'.foldl_rebuild []] at he
  injection he with he
  injection he with he
  exact he.symm

end Abacus
