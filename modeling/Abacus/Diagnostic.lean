import Abacus.Position

namespace Abacus

/-!
# Diagnostics

What compiling can find wrong with a source text, and where.

* `Complaint` — the ways in which a text is no acceptable expression; `Complaint.message` is the
  wording.
* `Diagnostic` — a complaint, or a text that is no token, at a position.
-/

/-- Why a sequence of tokens is no acceptable expression. -/
inductive Complaint where
  | expectExpression
  | expectClosing
  | expectEnd
  | tooManyConstants
  | tooDeepForStack
  | nestedTooDeeply
  | invalidNumber
  deriving DecidableEq

/-- The wording of a complaint. -/
def Complaint.message : Complaint → String
  | expectExpression => "Expect expression."
  | expectClosing => "Expect ')' after expression."
  | expectEnd => "Expect end of expression."
  | tooManyConstants => "Too many constants in one chunk."
  | tooDeepForStack => "Expression too deep for the value stack."
  | nestedTooDeeply => "Expression nested too deeply."
  | invalidNumber => "Invalid number."

namespace Diagnostic

/-- What is wrong. -/
inductive Cause where
  /-- A stretch of text is no token. -/
  | lexical (message : String)
  /-- The tokens are no acceptable expression. -/
  | grammatical (complaint : Complaint)
  deriving DecidableEq

/-- The wording of a cause. -/
def Cause.message : Cause → String
  | lexical message => message
  | grammatical complaint => complaint.message

end Diagnostic

/-- Something wrong with a source text. -/
structure Diagnostic where
  cause : Diagnostic.Cause
  position : Position
  deriving DecidableEq

end Abacus
