namespace Abacus

/-!
# The shortest decimal that reads back

A positive binary number is written with the fewest decimal digits that still round to it, and
among those with the nearest.

* `Rounding` — a positive number and the interval of numbers that round to it.
* `Decimal` — a coefficient times a power of ten.
* `Rounding.shortest` — the shortest decimal in the interval, the nearest of two, and the greater
  of two that are equally near.
-/

/-- A decimal number `coefficient · 10 ^ exponent`. -/
structure Decimal where
  coefficient : Nat
  exponent : Int
  deriving DecidableEq

namespace Decimal

/-- Moves the last zeros of the coefficient to the exponent; `0` stays as it is. -/
def trim (d : Decimal) : Decimal :=
  if h : d.coefficient ≠ 0 ∧ d.coefficient % 10 = 0 then
    have : d.coefficient / 10 < d.coefficient := by omega
    trim ⟨d.coefficient / 10, d.exponent + 1⟩
  else
    d
termination_by d.coefficient

/-- The digits of the coefficient. -/
def digits (d : Decimal) : List Char := Nat.toDigits 10 d.coefficient

/-- How many places stand before the point when the number is written in full; negative if zeros
    follow the point. -/
def point (d : Decimal) : Int := d.exponent + d.digits.length

end Decimal

/-- How many digits a number has; zero has none. Long numbers are cut into pieces of sixteen
    digits, which are counted quickly. -/
def digitCount (n : Nat) : Nat :=
  if Nat.pow 10 16 ≤ n then 16 + digitCount (n / Nat.pow 10 16)
  else if n = 0 then 0
  else (Nat.toDigits 10 n).length
termination_by n
decreasing_by
  have hpos : 0 < Nat.pow 10 16 := by decide
  exact Nat.div_lt_self (by omega) (by decide)

/-- A positive number `value / denominator` and the interval from `low / denominator` to
    `high / denominator` of the numbers that round to it. -/
structure Rounding where
  value : Nat
  low : Nat
  high : Nat
  denominator : Nat
  /-- Do the ends of the interval round to the number? -/
  closed : Bool

namespace Rounding

/-- The number `mantissa · 2 ^ exponent`. Its neighbours are one unit of the mantissa away, except
    that the one below is half as far if `narrow` holds; a number in the middle between two
    neighbours rounds to the even one. -/
def ofBinary (mantissa : Nat) (exponent : Int) (narrow : Bool) : Rounding :=
  let scale := Nat.pow 2 (exponent - 2).toNat
  { value := 4 * mantissa * scale
    low := (4 * mantissa - if narrow then 1 else 2) * scale
    high := (4 * mantissa + 2) * scale
    denominator := Nat.pow 2 (2 - exponent).toNat
    closed := mantissa % 2 = 0 }

/-- Does a decimal round to the number? -/
def contains (r : Rounding) (d : Decimal) : Bool :=
  let it := d.coefficient * Nat.pow 10 d.exponent.toNat * r.denominator
  let unit := Nat.pow 10 (-d.exponent).toNat
  if r.closed then r.low * unit ≤ it && it ≤ r.high * unit
  else r.low * unit < it && it < r.high * unit

/-- The place of the first digit: the number is less than `10 ^ point`, and at least a tenth of
    that. -/
def point (r : Rounding) : Int :=
  if r.denominator ≤ r.value then digitCount (r.value / r.denominator)
  else 1 - (digitCount ((r.denominator - 1) / r.value) : Int)

/-- The greatest decimal with a given exponent that is not above the number. -/
def floor (r : Rounding) (exponent : Int) : Decimal :=
  let unit := Nat.pow 10 exponent.toNat
  ⟨r.value * Nat.pow 10 (-exponent).toNat / (r.denominator * unit), exponent⟩

/-- Is the number nearer to `d` than to the next decimal with the same exponent? -/
def nearer (r : Rounding) (d : Decimal) : Bool :=
  2 * r.value * Nat.pow 10 (-d.exponent).toNat
    < (2 * d.coefficient + 1) * Nat.pow 10 d.exponent.toNat * r.denominator

/-- The decimal with a given exponent that rounds to the number: the nearest one, and the greater
    of two that are equally near. -/
def withExponent? (r : Rounding) (exponent : Int) : Option Decimal :=
  let below := r.floor exponent
  let above := { below with coefficient := below.coefficient + 1 }
  match r.contains below, r.contains above with
  | true, true => some (if r.nearer below then below else above)
  | true, false => some below
  | false, true => some above
  | false, false => none

/-- The shortest decimal that rounds to the number. Seventeen digits are always enough for
    mantissas of up to 53 bits. -/
def shortest (r : Rounding) : Decimal :=
  let point := r.point
  let exponents := (List.range 17).map fun n : Nat => point - n - 1
  ((exponents.findSome? r.withExponent?).getD (r.floor (point - 17))).trim

end Rounding

end Abacus
