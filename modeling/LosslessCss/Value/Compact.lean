import LosslessCss.Value.Quoting
import LosslessCss.Text.WhiteSpace

/-!
# Compaction

Compaction writes a selector, a value or the parameters of an at-rule with as little blank space as
possible.  A text is read as a sequence of *units*: an escaped character, a quoted string, or any
other single character.  Runs of white space and comments separate units and are not units
themselves.

Units are written as they are.  Between two units that were separated stands one space, unless
punctuation on either side makes it superfluous; between two units that were not, there is nothing.

## Main Definitions

* `Compact.units` : the units of a text, each with a note whether a separator stands in front
* `Compact.write` : units with the spaces between them
* `Compact.Tightness` : the punctuation that needs no space on one of its sides
* `compactSelector`, `compactValue`, `compactParams`
-/

namespace LosslessCss.Value

namespace Compact

/-- A stretch of text that is kept as it is. -/
structure Unit where
  /-- A separator stands in front. -/
  separated : Bool
  text : List Char
  deriving DecidableEq, Repr

/-- If a separator starts with `c`, its length behind `c`: white space one character at a time, a
comment as a whole. -/
def separatorTail? (c : Char) (cs : List Char) : Option Nat :=
  if Text.isWhiteSpace c then some 0
  else if c = '/' ∧ cs.head? = some '*' then some (commentLength cs.tail + 1)
  else none

/-- Length of the unit that starts with `c`, behind `c`. -/
def unitTail (c : Char) (cs : List Char) : Nat :=
  if c = '\\' then (cs.take 1).length
  else if isQuote c then quotedTail c cs
  else 0

/-- **The units of a text.**  `separated` tells whether a separator stands in front of the text. -/
def units (separated : Bool) : List Char → List Unit
  | [] => []
  | c :: cs =>
    match separatorTail? c cs with
    | some n => units true (cs.drop n)
    | none =>
      let n := unitTail c cs
      ⟨separated, c :: cs.take n⟩ :: units false (cs.drop n)
termination_by cs => cs.length
decreasing_by all_goals simp only [List.length_drop, List.length_cons]; omega

/-- The punctuation in front of which, and behind which, a space is superfluous. -/
structure Tightness where
  before : List Char
  behind : List Char
  deriving DecidableEq, Repr

/-- A separator between a text that ends with `last` and a unit that starts with `first` is written
as a space.  Without a `last` nothing is written yet. -/
def Tightness.spaces (tight : Tightness) (last first : Option Char) : Bool :=
  last.any (!tight.behind.contains ·) && !first.any tight.before.contains

/-- Units with the spaces between them, behind a text that ends with `last`. -/
def write (tight : Tightness) (last : Option Char) : List Unit → List Char
  | [] => []
  | u :: us =>
    let space := if u.separated && tight.spaces last u.text.head? then [' '] else []
    space ++ u.text ++ write tight u.text.getLast? us

/-- The compact form of a text. -/
def compact (tight : Tightness) (cs : List Char) : List Char :=
  write tight none (units false cs)

/-- In a selector a comma and the combinators need no space on either side. -/
def selectorTightness : Tightness where
  before := [',', '>', '+', '~']
  behind := [',', '>', '+', '~']

/-- In a value a comma needs no space on either side, and parentheses need none inside. -/
def valueTightness : Tightness where
  before := [',', ')']
  behind := [',', '(']

end Compact

/-- The compact form of a selector. -/
def compactSelector (text : String) : String :=
  String.ofList (Compact.compact Compact.selectorTightness text.toList)

/-- The compact form of a value. -/
def compactValue (text : String) : String :=
  String.ofList (Compact.compact Compact.valueTightness text.toList)

/-- The compact form of the parameters of an at-rule, which are written like values. -/
def compactParams (text : String) : String := compactValue text

end LosslessCss.Value
