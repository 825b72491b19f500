/-!
# Sources, positions and spans

A `Source` is a text with a number that tells it apart from other texts.  A place in it is a
`Position`: a byte offset in the text's UTF-8 form together with the line and the column that a
reader would name.  Lines end at a line feed and at nothing else; columns count characters.  Both
start at 1.

All three numbers are measures of the text in front of the place, so `Position.advance` over a text
is a fold over its characters, and passing two texts one after the other is passing their
concatenation (`Position.advance_append`).

## Main Definitions

* `Position.step`, `Position.advance` : the place behind a character, behind a text
* `Source.positionAt` : the place at a byte offset
* `Source.slice?` : the text between two byte offsets
-/

namespace LosslessCss

/-- A place in a text: byte offset, line and column, the last two counted from 1. -/
structure Position where
  offset : Nat
  line : Nat
  column : Nat
  deriving DecidableEq, Repr

namespace Position

/-- The place in front of the first character. -/
def start : Position := ⟨0, 1, 1⟩

/-- The place behind one more character. -/
def step (p : Position) (c : Char) : Position :=
  if c = '\n' then ⟨p.offset + 1, p.line + 1, 1⟩
  else ⟨p.offset + c.utf8Size, p.line, p.column + 1⟩

/-- The place behind a text that begins at `p`. -/
def advance (p : Position) (text : String) : Position := text.toList.foldl step p

/-- Line and column as messages name them. -/
def name (p : Position) : String := s!"{p.line}:{p.column}"

@[simp] theorem advance_empty (p : Position) : p.advance "" = p := rfl

/-- **Passing a concatenation** is passing its parts in order. -/
@[simp] theorem advance_append (p : Position) (s t : String) :
    p.advance (s ++ t) = (p.advance s).advance t := by
  simp [advance]

end Position

/-- A stretch of the source numbered `source`, from `start` up to `stop`. -/
structure Span where
  source : Nat
  start : Position
  stop : Position
  deriving DecidableEq, Repr

/-- Length of a span in bytes. -/
def Span.size (s : Span) : Nat := s.stop.offset - s.start.offset

/-- A text with the number that its spans carry. -/
structure Source where
  text : String
  id : Nat := 0
  deriving DecidableEq, Repr

namespace Source

/-! ### Cutting at byte offsets -/

/-- Cuts a text at a byte offset.  An offset behind the end, or inside a character, cuts nowhere. -/
def cut? : Nat → List Char → Option (List Char × List Char)
  | 0, cs => some ([], cs)
  | _ + 1, [] => none
  | n + 1, c :: cs =>
    if n + 1 < c.utf8Size then none
    else (cut? (n + 1 - c.utf8Size) cs).map fun (before, rest) => (c :: before, rest)

/-- Cuts a text at the last place between characters that is not behind the byte offset. -/
def cutBefore : Nat → List Char → List Char × List Char
  | _, [] => ([], [])
  | n, c :: cs =>
    if n < c.utf8Size then ([], c :: cs)
    else
      let (before, rest) := cutBefore (n - c.utf8Size) cs
      (c :: before, rest)

/-- Cutting at any offset keeps the text. -/
theorem cutBefore_append (n : Nat) (cs : List Char) :
    (cutBefore n cs).1 ++ (cutBefore n cs).2 = cs := by
  fun_induction cutBefore n cs with
  | case1 => rfl
  | case2 => rfl
  | case3 n c cs _ before rest cut ih => simp_all

/-! ### Places -/

/-- Length of the text in bytes. -/
def size (s : Source) : Nat := s.text.utf8ByteSize

/-- The place `n` bytes behind `p`, where `cs` is the text behind `p`.  An offset inside a character
already counts that character in its column; an offset behind the end is the end. -/
def placeAt (p : Position) : Nat → List Char → Position
  | _, [] => p
  | n, c :: cs =>
    if n = 0 then p
    else if n < c.utf8Size then ⟨p.offset + n, p.line, p.column + 1⟩
    else placeAt (p.step c) (n - c.utf8Size) cs

/-- The place at a byte offset. -/
def positionAt (s : Source) (offset : Nat) : Position :=
  placeAt .start offset s.text.toList

/-- The place behind the last character. -/
def endPosition (s : Source) : Position := Position.start.advance s.text

/-- The text between two byte offsets of the source numbered `id`: none for another source, for
offsets in the wrong order, behind the end or inside a character. -/
def slice? (s : Source) (id start stop : Nat) : Option String :=
  if id = s.id ∧ start ≤ stop then do
    let (_, rest) ← cut? start s.text.toList
    let (middle, _) ← cut? (stop - start) rest
    return String.ofList middle
  else none

end Source

end LosslessCss
