import LosslessCss.Value.Split
import LosslessCss.Source

/-!
# Scanning for the items of a list

The items of a list can be cut out of its text by a place that moves on from character to character.
The scan keeps what is open at the place, and where the stretch starts that it is in.  At a separator
that counts, and at the end of the text, it notes the stretch by the byte offsets of its two ends and
starts a new one.  An empty stretch is not noted, unless it is the last one and is asked for.

## Main Definitions

* `Split.Context.advance?` : what is open behind a character, unless it separates
* `Split.scan` : where the stretches of a list start and stop
* `Split.item?` : the item between two byte offsets
* `splitInPlace?` : the items of a list, cut out of its text
-/

namespace LosslessCss.Value

namespace Split

/-- **What is open behind a character**; there is no answer if the character separates.  An escape
comes first, then what is open, and a separator comes last. -/
def Context.advance? (isSeparator : Char → Bool) (x : Context) (c : Char) : Option Context :=
  if x.escaped then some { x with escaped := false }
  else if c = '\\' then some { x with escaped := true }
  else
    match x.quote with
    | some q => some (if c = q then { x with quote := none } else x)
    | none =>
      if c = '"' ∨ c = '\'' then some { x with quote := some c }
      else if c = '(' then some { x with depth := x.depth + 1 }
      else if c = ')' then some { x with depth := x.depth - 1 }
      else if x.depth == 0 && isSeparator c then none
      else some x

/-- **Where the stretches of a list start and stop**, in bytes.  The scan is at `here`, in a stretch
that starts at `start`. -/
def scan (isSeparator : Char → Bool) (keepLast : Bool) (x : Context) (start here : Nat) :
    List Char → List (Nat × Nat)
  | [] => if keepLast || start < here then [(start, here)] else []
  | c :: cs =>
    let next := here + c.utf8Size
    match x.advance? isSeparator c with
    | some y => scan isSeparator keepLast y start next cs
    | none =>
      let others := scan isSeparator keepLast x next next cs
      if start < here then (start, here) :: others else others

/-- The item between two byte offsets of a text; none if they do not lie between characters. -/
def item? (value : String) (start stop : Nat) : Option String :=
  (({ text := value } : Source).slice? 0 start stop).map fun piece =>
    String.ofList (Text.trim piece.toList)

end Split

/-- **The items of a list, cut out of its text**; none if a stretch does not start and stop between
characters. -/
def splitInPlace? (separators : List Char) (keepLast : Bool) (value : String) :
    Option (List String) :=
  (Split.scan separators.contains keepLast {} 0 0 value.toList).mapM fun ends =>
    Split.item? value ends.1 ends.2

end LosslessCss.Value
