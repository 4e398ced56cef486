import Abacus.Decimal.Shortest

namespace Abacus

/-!
# Decimal texts of floating-point numbers

* `Layout` — which numbers are written without an exponent, and how whole ones end.
* `Layout.write` — the text of a number.
* `Layout.plain` — the layout of results: never an exponent, no fraction after a whole number.
* `Layout.explicit` — the layout of values on the stack: an exponent for very large and very small
  numbers, and always a fraction or an exponent.
-/

/-- The decisions that a decimal text leaves open. -/
structure Layout where
  /-- The places of the point at which a number is written without an exponent. -/
  positional : Int → Bool
  /-- What ends a whole number that is written without an exponent. -/
  wholeEnd : List Char

namespace Layout

/-- Results are written out in full. -/
def plain : Layout where
  positional _ := true
  wholeEnd := []

/-- Values on the stack show that they are no integers. Numbers from `1e16` on and below `1e-4` have
    an exponent. -/
def explicit : Layout where
  positional point := -4 < point && point ≤ 16
  wholeEnd := ['.', '0']

/-- The digits with the point `point` places after the first one's left side. -/
def writePositional (layout : Layout) (digits : List Char) (point : Int) : List Char :=
  if point ≤ 0 then
    '0' :: '.' :: (List.replicate (-point).toNat '0' ++ digits)
  else if point < digits.length then
    digits.take point.toNat ++ '.' :: digits.drop point.toNat
  else
    digits ++ List.replicate (point.toNat - digits.length) '0' ++ layout.wholeEnd

/-- One digit before the point, and an exponent. -/
def writeExponent (digits : List Char) (point : Int) : List Char :=
  let fraction := digits.drop 1
  digits.take 1 ++ (if fraction.isEmpty then [] else '.' :: fraction)
    ++ 'e' :: (toString (point - 1)).toList

/-- The text of a positive decimal. -/
def writeDecimal (layout : Layout) (d : Decimal) : List Char :=
  if layout.positional d.point then layout.writePositional d.digits d.point
  else writeExponent d.digits d.point

/-- The text of a number without its sign, from the exponent and the fraction of its bits. -/
def writeMagnitude (layout : Layout) (exponent fraction : Nat) : List Char :=
  if exponent = 2047 then
    "inf".toList
  else if exponent = 0 ∧ fraction = 0 then
    '0' :: layout.wholeEnd
  else if exponent = 0 then
    layout.writeDecimal (Rounding.ofBinary fraction (-1074) false).shortest
  else
    let mantissa := Nat.pow 2 52 + fraction
    layout.writeDecimal
      (Rounding.ofBinary mantissa (exponent - 1075) (fraction = 0 && 1 < exponent)).shortest

/-- The text of a number: the shortest that reads back. -/
def write (layout : Layout) (x : Float) : String :=
  let bits := x.toBits.toNat
  let fraction := bits % Nat.pow 2 52
  let exponent := bits / Nat.pow 2 52 % Nat.pow 2 11
  if exponent = 2047 ∧ fraction ≠ 0 then
    "NaN"
  else
    String.ofList
      ((if Nat.pow 2 63 ≤ bits then ['-'] else []) ++ layout.writeMagnitude exponent fraction)

end Layout

end Abacus
