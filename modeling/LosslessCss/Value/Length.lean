import LosslessCss.Value.Decimal
import LosslessCss.Value.Quoting
import LosslessCss.Text.Ascii

/-!
# Pixel lengths in root units

A root unit (`rem`) is the font size of the root element, so a length in pixels is turned into root
units by dividing it by that size.  The division is exact up to one rounding, eight places behind
those that were written.

A value is read as a sequence of segments, and only pixel lengths among them are converted.  A
number is a pixel length if its unit is `px` and neither end is glued to a name: `12px` is one,
`a12px`, `12pxx` and `1e3px` contain none.  Quoted strings, comments and addresses in `url(…)` are
segments of their own, so nothing is converted inside.

## Main Definitions

* `Pixels` : sign and digits of a pixel length
* `Pixels.write` : the same length in root units
* `Length.segments` : a value as text and pixel lengths
* `pxToRem` : the value with its pixel lengths converted
-/

namespace LosslessCss.Value

/-- A pixel length as it was written, without its unit. -/
structure Pixels where
  negative : Bool
  whole : List Char
  fraction : List Char
  deriving DecidableEq, Repr

namespace Pixels

/-- Places of the result beyond those that were written. -/
def extraPlaces : Nat := 8

/-- The number that a digit stands for. -/
def digitValue (c : Char) : Nat := c.toNat - '0'.toNat

/-- The magnitude in pixels. -/
def magnitude (p : Pixels) : Decimal where
  whole := p.whole.map digitValue
  fraction := p.fraction.map digitValue

/-- **A length in root units.**  Zero has neither sign nor unit. -/
def write (p : Pixels) (root : Nat) : List Char :=
  let d := (p.magnitude.quotient root extraPlaces).trim
  if d.isEmpty then ['0']
  else (if p.negative then ['-'] else []) ++ d.write ++ ['r', 'e', 'm']

end Pixels

namespace Length

/-- The characters to which a number or the name `url` can be glued. -/
def isNameChar (c : Char) : Bool :=
  c.isAlphanum || c == '_' || c == '-' || c == '#' || c == '%' || c == '.' || c == '\\' ||
    0x80 ≤ c.toNat

/-- The text starts with the unit `px` and no name goes on behind it. -/
def startsUnit : List Char → Bool
  | p :: x :: rest => Text.eqIgnoringCase [p, x] ['p', 'x'] && !rest.head?.any isNameChar
  | _ => false

/-- The pixel length without a sign at the start of a text, and how many characters it takes. -/
def unsigned? (cs : List Char) : Option (Pixels × Nat) :=
  let whole := cs.takeWhile Char.isDigit
  let fraction := match cs.dropWhile Char.isDigit with
    | '.' :: rest => rest.takeWhile Char.isDigit
    | _ => []
  let size := whole.length + if fraction.isEmpty then 0 else fraction.length + 1
  if size ≠ 0 ∧ startsUnit (cs.drop size) then some (⟨false, whole, fraction⟩, size + 2) else none

/-- The pixel length at the start of `c :: cs`, and how many characters of `cs` it takes.
`previous` is the character in front: a name glued to the number, or to its sign, rules a length
out, and so does a sign that was ruled out itself. -/
def pixels? (previous : Option Char) (c : Char) (cs : List Char) : Option (Pixels × Nat) :=
  if c = '+' ∨ c = '-' then
    if previous.any isNameChar then none
    else (unsigned? cs).map fun (p, n) => ({ p with negative := c == '-' }, n)
  else if previous.any (fun p => isNameChar p || p == '+') then none
  else (unsigned? (c :: cs)).map fun (p, n) => (p, n - 1)

/-- Length of an address behind `url(`: up to and including the closing parenthesis, or all of the
text.  Quoted strings inside are passed as a whole. -/
def addressLength : List Char → Nat
  | [] => 0
  | ['\\'] => 1
  | '\\' :: _ :: cs => addressLength cs + 2
  | c :: cs =>
    if isQuote c then
      let n := quotedTail c cs
      addressLength (cs.drop n) + n + 1
    else if c = ')' then 1
    else addressLength cs + 1
termination_by cs => cs.length
decreasing_by all_goals simp only [List.length_drop, List.length_cons]; omega

/-- If a stretch in which nothing is converted starts with `c`, its length behind `c`. -/
def protectedTail? (previous : Option Char) (c : Char) (cs : List Char) : Option Nat :=
  if isQuote c then some (quotedTail c cs)
  else if c = '/' ∧ cs.head? = some '*' then some (commentLength cs.tail + 1)
  else if !previous.any isNameChar && Text.eqIgnoringCase (c :: cs.take 3) ['u', 'r', 'l', '('] then
    some (addressLength (cs.drop 3) + 3)
  else none

/-- A stretch of a value: text that stays, or a pixel length with the text that wrote it. -/
inductive Segment where
  | text (source : List Char)
  | length (pixels : Pixels) (source : List Char)
  deriving DecidableEq, Repr

/-- The text of a segment in the value. -/
def Segment.source : Segment → List Char
  | text source => source
  | length _ source => source

/-- The text of a segment where pixel lengths are written in root units. -/
def Segment.write (root : Nat) : Segment → List Char
  | text source => source
  | length pixels _ => pixels.write root

/-- **The segments of a value**, where `previous` is the character in front. -/
def segments (previous : Option Char) : List Char → List Segment
  | [] => []
  | c :: cs =>
    match protectedTail? previous c cs with
    | some n =>
      let source := c :: cs.take n
      .text source :: segments source.getLast? (cs.drop n)
    | none =>
      match pixels? previous c cs with
      | some (pixels, n) =>
        let source := c :: cs.take n
        .length pixels source :: segments source.getLast? (cs.drop n)
      | none => .text [c] :: segments (some c) cs
termination_by cs => cs.length
decreasing_by all_goals simp only [List.length_drop, List.length_cons]; omega

/-- The letters `px` occur somewhere. -/
def mentionsPx : List Char → Bool
  | p :: x :: cs => Text.eqIgnoringCase [p, x] ['p', 'x'] || mentionsPx (x :: cs)
  | _ => false

end Length

/-- **A value with its pixel lengths in root units**, where a root unit is `root` pixels.  With a
root unit of no size there is nothing to convert. -/
def pxToRem (root : Nat) (value : String) : String :=
  if root = 0 ∨ !Length.mentionsPx value.toList then value
  else
    String.ofList ((Length.segments none value.toList).flatMap (Length.Segment.write root))

end LosslessCss.Value
