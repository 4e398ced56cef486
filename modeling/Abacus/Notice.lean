import Abacus.Diagnostic
import Abacus.Fault
import Abacus.Instruction

namespace Abacus

/-!
# Notices

The printed form of everything that goes wrong.

* `Category` — what kind of trouble it is, with its name and number.
* `Notice` — a category, a place and a text.
* `Notice.display` — the notice on one line.
* `Notice.render` — the notice as it is shown to a user, with or without colour.
* `Diagnostic.notice`, `Fault.notice` — the notices of diagnostics and faults.
-/

/-- Kinds of trouble. -/
inductive Category where
  | lexError
  | parseError
  | stackOverflow
  | stackUnderflow
  | unknownOpcode
  | invalidConstant
  | endOfChunk
  deriving DecidableEq

namespace Category

/-- The name of a category. -/
def name : Category → String
  | lexError => "LEX ERROR"
  | parseError => "PARSE ERROR"
  | stackOverflow => "STACK OVERFLOW"
  | stackUnderflow => "STACK UNDERFLOW"
  | unknownOpcode => "UNKNOWN OPCODE"
  | invalidConstant => "INVALID CONSTANT"
  | endOfChunk => "END OF CHUNK"

/-- The number of a category. -/
def number : Category → Nat
  | lexError => 1
  | parseError => 2
  | stackOverflow => 10
  | stackUnderflow => 11
  | unknownOpcode => 12
  | invalidConstant => 13
  | endOfChunk => 14

/-- Does the trouble come from bytecode, and not from a source text? -/
def isFault : Category → Bool
  | lexError => false
  | parseError => false
  | _ => true

end Category

/-- Trouble at a place. In a source text the place is a line and a column, in bytecode it is an
    offset; line and column `0` stand for no place. -/
structure Notice where
  category : Category
  line : Nat := 0
  column : Nat := 0
  offset : Option Nat := none
  text : String := ""
  deriving DecidableEq

/-! ### Colour -/

/-- Ways to make a text stand out on a terminal. -/
inductive Style where
  | boldRed
  | bold
  | blue
  deriving DecidableEq

namespace Style

/-- The parameters that switch a style on. -/
def code : Style → String
  | boldRed => "1;31"
  | bold => "1"
  | blue => "34"

/-- Sets a text in a style. -/
def paint (style : Style) (text : String) : String :=
  "\x1b[" ++ style.code ++ "m" ++ text ++ "\x1b[0m"

end Style

namespace Notice

/-- Where the trouble is, on one line; an offset hides a line. -/
def place (n : Notice) : String :=
  match n.offset with
  | some offset => " at offset " ++ toString offset
  | none => if 0 < n.line then " at " ++ toString n.line ++ ":" ++ toString n.column else ""

/-- The notice on one line: category, place and text, as far as there are any. -/
def display (n : Notice) : String :=
  n.category.name ++ n.place ++ if n.text.isEmpty then "" else ": " ++ n.text

/-- The notice as a value in a dump. -/
def dump (n : Notice) : String := "Error \x7b " ++ n.display ++ " \x7d"

/-- What stands before the message. -/
def label (n : Notice) : String := if n.category.isFault then "fault: " else "error: "

/-- The message to a user: a fault is told in full, of an error only the text. -/
def message (n : Notice) : String := if n.category.isFault then n.display else n.text

/-- Where the trouble is in something called `source`. -/
def location (n : Notice) (source : String) : String :=
  match n.offset with
  | some offset => source ++ "@" ++ addressText offset
  | none => source ++ ":" ++ toString n.line ++ ":" ++ toString n.column

/-- What leads to the location. -/
def arrow : String := " --> "

/-- The notice as it is shown to a user. -/
def render (n : Notice) (source : String) (color : Bool) : String :=
  let paint (style : Style) (text : String) := if color then style.paint text else text
  paint .boldRed n.label ++ paint .bold n.message ++ "\n"
    ++ paint .blue arrow ++ n.location source ++ "\n"

end Notice

/-! ### What diagnostics and faults look like -/

namespace Diagnostic

/-- The category of a cause. -/
def Cause.category : Cause → Category
  | lexical _ => .lexError
  | grammatical _ => .parseError

/-- The notice of a diagnostic. -/
def notice (d : Diagnostic) : Notice where
  category := d.cause.category
  line := d.position.line
  column := d.position.column
  text := d.cause.message

end Diagnostic

namespace Fault

/-- The category of a cause. -/
def Cause.category : Cause → Category
  | stackOverflow => .stackOverflow
  | stackUnderflow => .stackUnderflow
  | unknownOpcode _ => .unknownOpcode
  | invalidConstant _ => .invalidConstant
  | endOfChunk => .endOfChunk

/-- The notice of a cause without a place. -/
def Cause.notice (cause : Cause) : Notice where
  category := cause.category
  text := cause.message

/-- The notice of a fault. -/
def notice (f : Fault) : Notice := { f.cause.notice with offset := some f.offset }

end Fault

end Abacus
