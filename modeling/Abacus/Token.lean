import Abacus.Position

namespace Abacus

/-!
# Tokens

A token is a classified stretch of the source together with the place where it begins.

* `Delimiter`, `Operator`, `Keyword` — the marks and reserved words, each with its spelling.
* `Kind` — what a token is; `Kind.name` is the name the log shows.
* `Token` — a kind, a lexeme and a position.
-/

/-- Marks that stand alone. -/
inductive Delimiter where
  | leftParen
  | rightParen
  | leftBrace
  | rightBrace
  | comma
  | dot
  | semicolon
  deriving DecidableEq

namespace Delimiter

/-- Every delimiter once. -/
def all : List Delimiter :=
  [leftParen, rightParen, leftBrace, rightBrace, comma, dot, semicolon]

/-- The character that spells a delimiter. -/
def char : Delimiter → Char
  | leftParen => '('
  | rightParen => ')'
  | leftBrace => '\x7b'
  | rightBrace => '\x7d'
  | comma => ','
  | dot => '.'
  | semicolon => ';'

/-- The name shown in the log. -/
def name : Delimiter → String
  | leftParen => "LeftParen"
  | rightParen => "RightParen"
  | leftBrace => "LeftBrace"
  | rightBrace => "RightBrace"
  | comma => "Comma"
  | dot => "Dot"
  | semicolon => "Semicolon"

/-- The delimiter that `c` spells. -/
def ofChar? (c : Char) : Option Delimiter := all.find? (·.char = c)

theorem mem_all (d : Delimiter) : d ∈ all := by cases d <;> decide

@[simp] theorem ofChar?_char (d : Delimiter) : ofChar? d.char = some d := by
  cases d <;> rfl

theorem char_eq_of_ofChar? {c : Char} {d : Delimiter} (h : ofChar? c = some d) : d.char = c := by
  simpa using List.find?_some h

end Delimiter

/-- Marks that may be followed by an equals sign. -/
inductive Operator where
  | bang
  | equal
  | plus
  | minus
  | star
  | slash
  | greater
  | less
  deriving DecidableEq

namespace Operator

/-- Every operator once. -/
def all : List Operator := [bang, equal, plus, minus, star, slash, greater, less]

/-- The character that spells an operator. -/
def char : Operator → Char
  | bang => '!'
  | equal => '='
  | plus => '+'
  | minus => '-'
  | star => '*'
  | slash => '/'
  | greater => '>'
  | less => '<'

/-- The name shown in the log. -/
def name : Operator → String
  | bang => "Bang"
  | equal => "Equal"
  | plus => "Plus"
  | minus => "Minus"
  | star => "Star"
  | slash => "Slash"
  | greater => "Greater"
  | less => "Less"

/-- The operator that `c` spells. -/
def ofChar? (c : Char) : Option Operator := all.find? (·.char = c)

theorem mem_all (o : Operator) : o ∈ all := by cases o <;> decide

@[simp] theorem ofChar?_char (o : Operator) : ofChar? o.char = some o := by
  cases o <;> rfl

theorem char_eq_of_ofChar? {c : Char} {o : Operator} (h : ofChar? c = some o) : o.char = c := by
  simpa using List.find?_some h

end Operator

/-- Reserved words. -/
inductive Keyword where
  | kwAnd
  | kwClass
  | kwElse
  | kwFalse
  | kwFor
  | kwFun
  | kwIf
  | kwLet
  | kwNil
  | kwOr
  | kwPrint
  | kwReturn
  | kwSuper
  | kwThis
  | kwTrue
  | kwWhile
  deriving DecidableEq

namespace Keyword

/-- Every reserved word once. -/
def all : List Keyword :=
  [kwAnd, kwClass, kwElse, kwFalse, kwFor, kwFun, kwIf, kwLet, kwNil, kwOr, kwPrint, kwReturn,
    kwSuper, kwThis, kwTrue, kwWhile]

/-- The spelling of a reserved word. -/
def word : Keyword → String
  | kwAnd => "and"
  | kwClass => "class"
  | kwElse => "else"
  | kwFalse => "false"
  | kwFor => "for"
  | kwFun => "fun"
  | kwIf => "if"
  | kwLet => "let"
  | kwNil => "nil"
  | kwOr => "or"
  | kwPrint => "print"
  | kwReturn => "return"
  | kwSuper => "super"
  | kwThis => "this"
  | kwTrue => "true"
  | kwWhile => "while"

/-- The name shown in the log: the word with a capital first letter. -/
def name (k : Keyword) : String := k.word.capitalize

/-- The reserved word that `text` spells; case matters. -/
def ofWord? (text : String) : Option Keyword := all.find? (·.word = text)

theorem mem_all (k : Keyword) : k ∈ all := by cases k <;> decide

@[simp] theorem ofWord?_word (k : Keyword) : ofWord? k.word = some k := by
  cases k <;> rfl

theorem word_eq_of_ofWord? {text : String} {k : Keyword} (h : ofWord? text = some k) :
    k.word = text := by
  simpa using List.find?_some h

end Keyword

/-- What a token is. -/
inductive Kind where
  | delimiter (mark : Delimiter)
  /-- An operator, and whether an equals sign is joined to it. -/
  | operator (mark : Operator) (joined : Bool)
  | identifier
  | string
  | number
  | keyword (word : Keyword)
  /-- A stretch of text that is no token; the lexeme is then the complaint about it. -/
  | error
  /-- The end of the text. -/
  | eof
  deriving DecidableEq

namespace Kind

/-- Every kind once. -/
def all : List Kind :=
  Delimiter.all.map delimiter
    ++ Operator.all.flatMap (fun o => [operator o false, operator o true])
    ++ [identifier, string, number]
    ++ Keyword.all.map keyword
    ++ [error, eof]

/-- The name shown in the log. -/
def name : Kind → String
  | delimiter d => d.name
  | operator o false => o.name
  | operator o true => o.name ++ "Equal"
  | identifier => "Identifier"
  | string => "String"
  | number => "Number"
  | keyword k => k.name
  | error => "Error"
  | eof => "Eof"

/-- The kind with an equals sign joined to it; only operators take one. -/
def withEqual : Kind → Kind
  | operator o _ => operator o true
  | kind => kind

/-- The kind that has a given name. -/
def ofName? (name : String) : Option Kind := all.find? (·.name = name)

theorem mem_all (k : Kind) : k ∈ all := by
  cases k with
  | delimiter d => simp [all, Delimiter.mem_all]
  | operator o joined => cases joined <;> simp [all, Operator.mem_all]
  | keyword k => simp [all, Keyword.mem_all]
  | _ => simp [all]

end Kind

/-- A classified stretch of text. Its text is `lexeme`, except that the lexeme of an error
    is the complaint. -/
structure Token where
  kind : Kind
  lexeme : String
  position : Position
  deriving DecidableEq

namespace Token

/-- A token is written as its lexeme. -/
def text (t : Token) : String := t.lexeme

/-- Does the token stand for text that could not be read? -/
def isError (t : Token) : Bool := t.kind = .error

end Token

end Abacus
