import Abacus.Diagnostic
import Abacus.Opcode
import Abacus.Precedence
import Abacus.Token.Stream

namespace Abacus

/-!
# Actions of a parser

Reading an expression leaves a list of actions behind, in the order in which they happen. What the
actions do to bytecode is told elsewhere, so that reading does not depend on it.

* `Action` — one thing that happens while an expression is read.
* `Parsed s` — the actions of reading from the stream `s`, and the stream they leave, which is
  never longer.
* `Parser` — a way to read; `++` reads with one parser and then with the next.
* `Parser.settle`, `Parser.advance`, `Parser.expect` — how tokens are taken.
-/

/-- One thing that happens while an expression is read. -/
inductive Action where
  /-- A token is scanned, also one that is no more than an error. -/
  | scan (token : Token)
  /-- The token at the front is taken. -/
  | consume (token : Token)
  /-- An operand begins. -/
  | enter
  /-- The operand that began last ends. -/
  | leave
  /-- The operand before this token goes on with it. -/
  | extend (token : Token)
  /-- A token begins to play its role. -/
  | apply (role : Role) (token : Token)
  /-- A number becomes a constant. -/
  | literal (token : Token)
  /-- An instruction of one byte is written. -/
  | emit (opcode : Opcode)
  /-- Two operands have become one. -/
  | merge
  /-- Something is wrong at a token. -/
  | report (complaint : Complaint) (token : Token)
  deriving DecidableEq

/-- The actions of reading from `s`, and what they leave of it. -/
structure Parsed (s : TokenStream) where
  actions : List Action
  rest : TokenStream
  length_le : rest.body.length ≤ s.body.length

/-- What was read before, and then what is read from the rest. -/
def Parsed.andThen {s : TokenStream} (p : Parsed s) (q : Parsed p.rest) : Parsed s :=
  ⟨p.actions ++ q.actions, q.rest, Nat.le_trans q.length_le p.length_le⟩

/-- A way to read from a token stream. -/
def Parser := (s : TokenStream) → Parsed s

namespace Parser

/-- Reads with `p` and then with `q`. -/
def append (p q : Parser) : Parser := fun s => (p s).andThen (q (p s).rest)

instance : Append Parser := ⟨append⟩

/-- Takes some actions and reads nothing. -/
def note (actions : List Action) : Parser := fun s => ⟨actions, s, Nat.le_refl _⟩

/-- Reads in a way that hangs on the token at the front. -/
def look (f : Token → Parser) : Parser := fun s => f s.current s

/-- Takes the token at the front off the stream. -/
def drop : Parser := fun s => ⟨[], s.tail, by rw [s.length_tail]; exact Nat.sub_le _ _⟩

/-- Scans up to the first token that is no error, which is then at the front. -/
def settle : Parser := fun s =>
  let rest := { s with body := s.body.dropWhile Token.isError }
  ⟨(s.body.takeWhile Token.isError ++ [rest.current]).map .scan, rest,
    (List.dropWhile_suffix _).length_le⟩

/-- Takes the token at the front and scans for the next one. -/
def advance : Parser := look fun t => note [.consume t] ++ drop ++ settle

/-- Takes a token of the given kind, or complains about the one that stands there. -/
def expect (kind : Kind) (complaint : Complaint) : Parser := look fun t =>
  if t.kind = kind then advance else note [.report complaint t]

@[simp] theorem append_actions (p q : Parser) (s : TokenStream) :
    ((p ++ q) s).actions = (p s).actions ++ (q (p s).rest).actions := rfl

@[simp] theorem append_rest (p q : Parser) (s : TokenStream) :
    ((p ++ q) s).rest = (q (p s).rest).rest := rfl

@[simp] theorem note_actions (actions : List Action) (s : TokenStream) :
    (note actions s).actions = actions := rfl

@[simp] theorem note_rest (actions : List Action) (s : TokenStream) :
    (note actions s).rest = s := rfl

@[simp] theorem look_apply (f : Token → Parser) (s : TokenStream) : look f s = f s.current s := rfl

@[simp] theorem drop_actions (s : TokenStream) : (drop s).actions = [] := rfl

@[simp] theorem drop_rest (s : TokenStream) : (drop s).rest = s.tail := rfl

/-- Taking a token off a stream that has one makes it shorter. -/
theorem length_advance_lt {s : TokenStream} (h : s.body ≠ []) :
    (advance s).rest.body.length < s.body.length := by
  have hs := (settle s.tail).length_le
  have ht := s.length_tail
  have := List.length_pos_iff.2 h
  show (settle s.tail).rest.body.length < s.body.length
  omega

end Parser

end Abacus
