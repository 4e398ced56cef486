namespace Abacus

/-!
# Number literals

* `Literal.read?` — the number that a literal stands for, rounded to the nearest floating-point
  number; one that is too large is infinite.
-/

namespace Literal

/-- The number that a row of digits stands for. -/
def digitsValue (digits : List Char) : Nat :=
  digits.foldl (fun n c => 10 * n + (c.toNat - '0'.toNat)) 0

/-- Is the text a row of digits, with at least one? -/
def isDigits (text : List Char) : Bool := !text.isEmpty && text.all Char.isDigit

/-- Reads digits, optionally followed by a point and more digits. -/
def read? (text : String) : Option Float :=
  let cs := text.toList
  let whole := cs.takeWhile (· != '.')
  match cs.dropWhile (· != '.') with
  | [] => if isDigits whole then some (Float.ofScientific (digitsValue whole) false 0) else none
  | _ :: fraction =>
    if isDigits whole && isDigits fraction then
      some (Float.ofScientific (digitsValue (whole ++ fraction)) true fraction.length)
    else
      none

end Literal

end Abacus
