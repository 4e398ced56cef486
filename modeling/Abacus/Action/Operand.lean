import Abacus.Action
import Abacus.Limits

namespace Abacus

/-!
# Reading operands

An operand of a given precedence is a beginning (a number, a sign or a parenthesis) followed by all
operators that hold it at least that tightly.

* `Parser.operand levels least` — an operand whose operators bind at least as tightly as `least`
  and which nests at most `levels` deep.
* `Parser.climb` — the operators after the beginning.
* `parse` — the actions of reading a whole stream as one expression.
-/

/-- The instruction for an operator on two operands. -/
def binaryOpcode? : Kind → Option Opcode
  | .operator .plus false => some .add
  | .operator .minus false => some .sub
  | .operator .star false => some .mul
  | .operator .slash false => some .div
  | _ => none

/-- The instruction for an operator on one operand. -/
def unaryOpcode? : Kind → Option Opcode
  | .operator .minus false => some .negate
  | _ => none

namespace Parser

/-- Lets the token `t`, which was just taken, play a role; `operand` reads the operands inside.
    The instruction of an operator follows its operands. -/
def apply (operand : Precedence → Parser) (role : Role) (t : Token) : Parser :=
  note [.apply role t] ++
    match role with
    | .grouping => operand .assignment ++ expect (.delimiter .rightParen) .expectClosing
    | .unary => operand .unary ++ note ((unaryOpcode? t.kind).toList.map .emit)
    | .binary =>
      operand (Rule.of t.kind).binding.next
        ++ note ((binaryOpcode? t.kind).toList.map .emit ++ [.merge])
    | .number => note [.literal t]

/-- Goes on with an operand for as long as the token at the front of `s` holds it at least as
    tightly as `least`. -/
def climbFrom (apply : Role → Token → Parser) (least : Precedence) (s : TokenStream) : Parsed s :=
  let t := s.current
  if (Rule.of t.kind).binding < least then
    note [] s
  else
    match h : (Rule.of t.kind).joins with
    | none => (note [.extend t] ++ advance) s
    | some role =>
      -- The end of the text joins nothing, so a token is taken off.
      let p := (note [.extend t] ++ advance ++ apply role t) s
      have : p.rest.body.length < s.body.length :=
        Nat.lt_of_le_of_lt (apply role t (advance s).rest).length_le <|
          length_advance_lt <| TokenStream.body_ne_nil_of_kind_ne fun hk => by
            rw [show t.kind = .eof from hk, Rule.joins_eof] at h
            nomatch h
      p.andThen (climbFrom apply least p.rest)
termination_by s.body.length

/-- Goes on with an operand that was begun. -/
def climb (apply : Role → Token → Parser) (least : Precedence) : Parser :=
  fun s => climbFrom apply least s

/-- Reads an operand that nests at most `levels` deep. -/
def operand : (levels : Nat) → (least : Precedence) → Parser
  | 0, _ => look fun t => note [.report .nestedTooDeeply t]
  | levels + 1, least => look fun t =>
    note [.enter] ++ advance
      ++ (match (Rule.of t.kind).starts with
        | none => note [.report .expectExpression t]
        | some role => apply (operand levels) role t ++ climb (apply (operand levels)) least)
      ++ note [.leave]

/-- Reads one expression and the end of the text after it. -/
def expression : Parser :=
  settle ++ operand levelMax .assignment ++ expect .eof .expectEnd ++ note [.emit .ret]

end Parser

/-- The actions of reading a stream as one expression. -/
def parse (s : TokenStream) : List Action := (Parser.expression s).actions

end Abacus
