import LosslessCss.Value.Length

/-!
# Scanning for pixel lengths

A value can be scanned for pixel lengths by a place that moves on.  A length is recognised where its
number starts, and the scan looks back from there: the sign belongs to the length although it stands
one place in front, and what stands in front of the sign decides whether both are part of a name.

So the scan knows each length by the range that is replaced.  Quoted strings, comments and addresses
are passed as a whole.

## Main Definitions

* `Length.Found`, `Length.found?` : the length whose number starts at a place
* `Length.Stretch`, `Length.scan` : what the scan passes and what it finds
-/

namespace LosslessCss.Value.Length

/-- A pixel length in a text, with its sign and its unit. -/
structure Found where
  start : Nat
  stop : Nat
  pixels : Pixels
  deriving DecidableEq, Repr

/-- The sign of a number, which may have none, behind a text that is given from its end.  There is no
answer if the number or its sign is glued to a name. -/
def signBehind? : List Char → Option (Option Char)
  | [] => some none
  | c :: front =>
    if c = '+' ∨ c = '-' then if front.head?.any isNameChar then none else some (some c)
    else if isNameChar c then none
    else some none

/-- **The length whose number starts at a place.** -/
def found? (text : List Char) (place : Nat) : Option Found :=
  match unsigned? (text.drop place), signBehind? (text.take place).reverse with
  | some (pixels, size), some sign =>
    some
      { start := place - sign.toList.length
        stop := place + size
        pixels := { pixels with negative := sign == some '-' } }
  | _, _ => none

theorem pos_of_unsigned? {cs : List Char} {pixels : Pixels} {size : Nat}
    (h : unsigned? cs = some (pixels, size)) : 0 < size := by
  rw [unsigned?, Option.ite_none_right_eq_some] at h
  rw [← (Prod.mk.inj (Option.some.inj h.2)).2]
  exact Nat.succ_pos _

/-- A length ends behind the place where it is found. -/
theorem lt_stop_of_found? {text : List Char} {place : Nat} {found : Found}
    (h : found? text place = some found) : place < found.stop := by
  unfold found? at h
  split at h
  · next hunsigned _ =>
    have hsize := pos_of_unsigned? hunsigned
    rw [← Option.some.inj h]
    exact Nat.lt_add_of_pos_right hsize
  · cases h

/-- What a scan meets: a stretch in which nothing is converted, or a pixel length. -/
inductive Stretch where
  | skipped (start stop : Nat)
  | length (found : Found)
  deriving DecidableEq, Repr

/-- **The scan of a text** from a place on. -/
def scan (text : List Char) (place : Nat) : List Stretch :=
  if hplace : place < text.length then
    match protectedTail? (text.take place).getLast? text[place] (text.drop (place + 1)) with
    | some n => .skipped place (place + n + 1) :: scan text (place + n + 1)
    | none =>
      match hfound : found? text place with
      | some found =>
        have := lt_stop_of_found? hfound
        .length found :: scan text found.stop
      | none => scan text (place + 1)
  else []
termination_by text.length - place

/-- The lengths that a scan has met. -/
def lengths (stretches : List Stretch) : List Found :=
  stretches.filterMap fun
    | .skipped .. => none
    | .length found => some found

end LosslessCss.Value.Length
