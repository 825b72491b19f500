import LosslessCss.Runs

/-!
# Division of decimal numbers of any length

A length in a style sheet may have any number of digits, and none of them is lost.  So numbers are
lists of digits here, and division is the one that is taught in schools: one digit of the quotient
after the other, from the first digit on, with nothing to remember but a remainder.

A remainder is smaller than the divisor, so each step stays below ten times the divisor however long
the number is.

## Main Definitions

* `longDivision` : the digits of a quotient, and the remainder
* `roundUp` : one more in the last place
* `Decimal` : digits in front of the point and behind it
* `Decimal.quotient` : a quotient to a number of places, rounded once
* `Decimal.trim`, `Decimal.write` : the shortest form of a decimal, and its text
-/

namespace LosslessCss.Value

/-- **Long division.**  The digits of the quotient, one for each digit of the number, and the
remainder; `remainder` is what the digits in front left over. -/
def longDivision (divisor remainder : Nat) : List Nat → List Nat × Nat
  | [] => ([], remainder)
  | digit :: digits =>
    let part := remainder * 10 + digit
    let (quotient, last) := longDivision divisor (part % divisor) digits
    (part / divisor :: quotient, last)

/-- One more in the last place, and whether a one is carried in front of the first place. -/
def roundUp : List Nat → List Nat × Bool
  | [] => ([], true)
  | digit :: digits =>
    match roundUp digits with
    | (digits, false) => (digit :: digits, false)
    | (digits, true) => if digit = 9 then (0 :: digits, true) else ((digit + 1) :: digits, false)

/-- A decimal number without a sign. -/
structure Decimal where
  whole : List Nat
  fraction : List Nat
  deriving DecidableEq, Repr

namespace Decimal

/-- **A quotient**, with `extra` places more than the number itself has.  What is left over counts
as one more in the last place if it is at least half of the divisor. -/
def quotient (number : Decimal) (divisor extra : Nat) : Decimal :=
  let (digits, remainder) :=
    longDivision divisor 0 (number.whole ++ number.fraction ++ List.replicate extra 0)
  let (digits, carry) := if divisor ≤ 2 * remainder then roundUp digits else (digits, false)
  let places := number.whole.length
  { whole := if carry then 1 :: digits.take places else digits.take places
    fraction := digits.drop places }

/-- No zeros in front of the whole part or behind the fraction. -/
def trim (d : Decimal) : Decimal where
  whole := d.whole.dropWhile (· == 0)
  fraction := dropTrailing (· == 0) d.fraction

/-- No digits at all, which in a trimmed decimal means zero. -/
def isEmpty (d : Decimal) : Bool := d.whole.isEmpty && d.fraction.isEmpty

/-- The text of a decimal: a zero stands for an empty whole part, and the point only in front of a
digit. -/
def write (d : Decimal) : List Char :=
  (if d.whole.isEmpty then ['0'] else d.whole.map Nat.digitChar) ++
    if d.fraction.isEmpty then [] else '.' :: d.fraction.map Nat.digitChar

end Decimal

end LosslessCss.Value
