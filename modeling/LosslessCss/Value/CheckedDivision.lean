import LosslessCss.Value.Length

/-!
# Division of decimal numbers in words of a fixed size

Long division remembers only a remainder, so it is done in machine words: a word holds a number below
`2 ^ 64` and a place holds a digit.  Here each operation refuses a result that does not fit, and then
there is no quotient at all.

The work is also cut short.  Once there is no remainder and the number has no digits left, all places
that are still to come are zeros, and they are not written down.

## Main Definitions

* `word?`, `place?` : numbers that fit into a word, and into a place
* `wholePlaces?`, `fractionPlaces?` : the quotient in front of the point, and behind it
* `Decimal.quotient?` : the quotient, rounded
* `Pixels.write?` : a pixel length in root units
-/

namespace LosslessCss.Value

/-- A number that fits into a word. -/
def word? (n : Nat) : Option Nat := if n < UInt64.size then some n else none

/-- A number that fits into a place. -/
def place? (n : Nat) : Option Nat := if n ≤ 9 then some n else none

/-- **One step of a division**: the next digit of the quotient, and what is left over. -/
def divisionStep? (divisor remainder digit : Nat) : Option (Nat × Nat) := do
  let shifted ← word? (remainder * 10)
  let part ← word? (shifted + digit)
  let place ← place? (part / divisor)
  return (place, part % divisor)

/-- The quotient of the digits in front of the point, and what they leave over. -/
def wholePlaces? (divisor remainder : Nat) : List Nat → Option (List Nat × Nat)
  | [] => some ([], remainder)
  | digit :: digits => do
    let (place, remainder) ← divisionStep? divisor remainder digit
    let (quotient, last) ← wholePlaces? divisor remainder digits
    return (place :: quotient, last)

/-- At most so many places behind the point.  Behind the digits of the number there are zeros, and
the division stops where nothing but zeros would follow. -/
def fractionPlaces? (divisor : Nat) : Nat → Nat → List Nat → Option (List Nat × Nat)
  | 0, remainder, _ => some ([], remainder)
  | places + 1, remainder, digits =>
    let digit := digits.headD 0
    if remainder = 0 ∧ digit = 0 ∧ digits.tail = [] then some ([], remainder)
    else do
      let (place, remainder) ← divisionStep? divisor remainder digit
      let (quotient, last) ← fractionPlaces? divisor places remainder digits.tail
      return (place :: quotient, last)

/-- One more in the last place, and whether a one is carried in front of the first place. -/
def carry? : List Nat → Option (List Nat × Bool)
  | [] => some ([], true)
  | digit :: digits => do
    match ← carry? digits with
    | (digits, false) => return (digit :: digits, false)
    | (digits, true) =>
      if digit = 9 then return (0 :: digits, true)
      else
        let place ← place? (digit + 1)
        return (place :: digits, false)

namespace Decimal

/-- One more in the last place.  What is carried out of the fraction goes to the whole part, and what
is carried out of the whole part becomes a place of its own. -/
def carry? (d : Decimal) : Option Decimal := do
  match ← Value.carry? d.fraction with
  | (fraction, false) => return ⟨d.whole, fraction⟩
  | (fraction, true) =>
    match ← Value.carry? d.whole with
    | (whole, false) => return ⟨whole, fraction⟩
    | (whole, true) => return ⟨1 :: whole, fraction⟩

/-- **A quotient in words**, with `extra` places more than the number itself has. -/
def quotient? (number : Decimal) (divisor extra : Nat) : Option Decimal := do
  let (whole, remainder) ← wholePlaces? divisor 0 number.whole
  let (fraction, last) ←
    fractionPlaces? divisor (number.fraction.length + extra) remainder number.fraction
  let double ← word? (last * 2)
  if divisor ≤ double ∧ last ≠ 0 then carry? ⟨whole, fraction⟩ else return ⟨whole, fraction⟩

end Decimal

/-- **A length in root units**, with all of its arithmetic in words. -/
def Pixels.write? (p : Pixels) (root : Nat) : Option (List Char) := do
  let d ← p.magnitude.quotient? root extraPlaces
  let d := d.trim
  if d.isEmpty then return ['0']
  else return (if p.negative then ['-'] else []) ++ d.write ++ ['r', 'e', 'm']

end LosslessCss.Value
