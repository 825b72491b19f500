import LosslessCss.Runs
import LosslessCss.Proofs.LineTable
import LosslessCss.Proofs.Cursor

/-!
# Columns of offsets inside of characters

The line of an offset is told by the line feeds in front of it, and its column by the characters that
start between the last of them and the offset.  An offset in front of a character has the column of
that character.  An offset inside a character has the next column: the first byte of the character is
passed already, and it is the first byte that counts for the character (`Source.CharAt.positionAt_eq`).

## Main Definitions

* `columnBehind` : the column behind a text
* `Source.CharAt` : the character with a byte at an offset
* `Source.Locates` : what a place tells about an offset

## Main Statements

* `Position.foldl_step_start` : the place behind a text
* `Source.CharAt.positionAt_eq` : the place at an offset in front of a character or inside of it
* `Source.positionAt_locates`
-/

namespace LosslessCss

open String (utf8Len utf8Len_cons utf8Len_append)
open Text (encode)

/-! ### Behind a text -/

/-- The part of a text behind its last line feed. -/
def lastLine (cs : List Char) : List Char := takeTrailing (· != '\n') cs

/-- The column behind a text: columns start at 1 in each line. -/
def columnBehind (cs : List Char) : ℕ := (lastLine cs).length + 1

theorem columnBehind_snoc (cs : List Char) (c : Char) :
    columnBehind (cs ++ [c]) = if c = '\n' then 1 else columnBehind cs + 1 := by
  by_cases hc : c = '\n' <;> simp [columnBehind, lastLine, takeTrailing, hc]

namespace Position

/-- **The place behind a text**: its bytes, its line feeds and its last line. -/
theorem foldl_step_start (cs : List Char) :
    cs.foldl step start = ⟨utf8Len cs, 1 + cs.count '\n', columnBehind cs⟩ := by
  induction cs using List.reverseRecOn with
  | nil => rfl
  | append_singleton cs c ih =>
    rw [List.foldl_append, ih, columnBehind_snoc, utf8Len_append, List.count_append]
    by_cases hc : c = '\n'
    · subst hc
      rfl
    · simp [step, hc]

theorem pass_offset (p : Position) (bs : List UInt8) : (p.pass bs).offset = p.offset + bs.length := by
  rw [pass]
  split <;> rfl

theorem pass_line (p : Position) (bs : List UInt8) :
    (p.pass bs).line = p.line + bs.count lineFeed := by
  rw [pass]
  split
  · rfl
  · next hlast => rw [count_of_lastFeed?_eq_none hlast, Nat.add_zero]

end Position

namespace Source

/-- **The character with a byte at an offset**, and the text in front of it. -/
structure CharAt (s : Source) (offset : ℕ) (front : List Char) (c : Char) : Prop where
  text : ∃ rest, s.text.toList = front ++ c :: rest
  start : utf8Len front ≤ offset
  stop : offset < utf8Len front + c.utf8Size

variable {s : Source} {offset : ℕ} {front : List Char} {c : Char}

theorem positionAt_eq_pass (s : Source) (offset : ℕ) :
    s.positionAt offset = Position.start.pass (s.bytes.take offset) := by
  rw [positionAt, placeAt_eq_foldl, Position.pass_eq, bytes]

theorem length_bytes (s : Source) : s.bytes.length = s.size := by
  rw [bytes, Text.length_encode, String.utf8Len_toList, size]

/-- Each byte belongs to a character. -/
theorem exists_charAt (h : offset < s.size) : ∃ front c, s.CharAt offset front c := by
  obtain ⟨hle, hnext⟩ := Cursor.cutBefore_spec offset s.text.toList
  have htext := cutBefore_append offset s.text.toList
  generalize (cutBefore offset s.text.toList).1 = front at hle hnext htext
  generalize (cutBefore offset s.text.toList).2 = behind at hnext htext
  cases behind with
  | nil =>
    rw [List.append_nil] at htext
    rw [htext, String.utf8Len_toList] at hle
    exact absurd h hle.not_gt
  | cons c rest => exact ⟨front, c, ⟨rest, htext.symm⟩, hle, hnext c rfl⟩

/-- **The place at a byte of a character**: in front of the character it has the column of the
character, inside of it the next one. -/
theorem CharAt.positionAt_eq (h : s.CharAt offset front c) :
    s.positionAt offset = ⟨offset, 1 + front.count '\n',
      columnBehind front + if offset = utf8Len front then 0 else 1⟩ := by
  obtain ⟨⟨rest, htext⟩, hstart, hstop⟩ := h
  obtain ⟨n, rfl⟩ := Nat.exists_eq_add_of_le hstart
  have hlength := String.length_utf8EncodeChar c
  have hbytes : (encode s.text.toList).take (utf8Len front + n) =
      encode front ++ (String.utf8EncodeChar c).take n := by
    rw [htext, Text.encode_append, Text.encode_cons, ← Text.length_encode front,
      List.take_length_add_append, List.take_append_of_le_length (by omega)]
  have hfront := Position.pass_encode .start front
  rw [Position.pass_eq, Position.foldl_step_start] at hfront
  rw [positionAt, placeAt_eq_foldl, hbytes, List.foldl_append, hfront]
  by_cases hzero : n = 0
  · simp [hzero]
  · have hinside : n < c.utf8Size := by omega
    rw [Position.foldl_stepByte_take _ c hzero hinside.le, if_pos hinside]
    simp [hzero]

/-- Behind the last byte, and behind the end, is the end. -/
theorem positionAt_of_size_le (h : s.size ≤ offset) : s.positionAt offset = s.endPosition := by
  rw [positionAt_eq_pass, List.take_of_length_le (s.length_bytes.trans_le h), bytes,
    Position.pass_encode, endPosition, Position.advance]

/-- Lines and columns are not greater than the number of the bytes allows. -/
theorem positionAt_le (s : Source) (offset : ℕ) :
    (s.positionAt offset).line ≤ s.size + 1 ∧ (s.positionAt offset).column ≤ s.size + 1 := by
  have hline := Position.pass_line .start (s.bytes.take offset)
  have hoffset := Position.pass_offset .start (s.bytes.take offset)
  obtain ⟨hcolumn, hsum⟩ : (s.positionAt offset).Narrow := by
    rw [positionAt_eq_pass, Position.pass_eq]
    exact Position.narrow_foldl_stepByte ⟨le_rfl, le_rfl⟩ _
  rw [← positionAt_eq_pass] at hline hoffset
  rw [Position.start_offset, List.length_take, length_bytes] at hoffset
  have hstart : Position.start.line = 1 := rfl
  omega

/-- **What a place tells about an offset.**  An offset behind the end counts as the end.  The line
counts the line feeds in front of the offset.  The column is the one of the character with a byte at
the offset, or the next one where the offset is inside the character.  At the end it is the column
behind the text. -/
structure Locates (s : Source) (offset : ℕ) (p : Position) : Prop where
  clamped : p.offset = min offset s.size
  line : p.line = 1 + (s.bytes.take offset).count lineFeed
  char : ∀ front c, s.CharAt offset front c → p.line = 1 + front.count '\n' ∧
    p.column = columnBehind front + if offset = utf8Len front then 0 else 1
  stop : s.size ≤ offset → p.column = columnBehind s.text.toList

/-- **The place at an offset**, as the table of the lines tells it, too.  Each offset in front of the
end belongs to a character.  Lines and columns fit into 32 bits, if the size of the text and one more
do. -/
theorem positionAt_locates (s : Source) (offset : ℕ) :
    s.Locates offset (s.positionAt offset) ∧ s.lookUp offset = s.positionAt offset ∧
      (offset < s.size → ∃ front c, s.CharAt offset front c) ∧
      (s.size + 1 < 2 ^ 32 →
        (s.positionAt offset).line < 2 ^ 32 ∧ (s.positionAt offset).column < 2 ^ 32) := by
  refine ⟨⟨?_, ?_, fun front c h => ?_, fun h => ?_⟩, (s.positionAt_eq_lookUp offset).symm,
    exists_charAt, fun h => ?_⟩
  · rw [positionAt_eq_pass, Position.pass_offset, List.length_take, length_bytes,
      Position.start_offset, Nat.zero_add]
  · rw [positionAt_eq_pass, Position.pass_line]
    rfl
  · rw [h.positionAt_eq]
    exact ⟨rfl, rfl⟩
  · rw [positionAt_of_size_le h, endPosition, Position.advance, Position.foldl_step_start]
  · obtain ⟨hline, hcolumn⟩ := s.positionAt_le offset
    exact ⟨hline.trans_lt h, hcolumn.trans_lt h⟩

/-- Both bytes of `é` belong to it, and the second has the next column. -/
theorem positionAt_accent : CharAt ⟨"é", 0⟩ 0 [] 'é' ∧ CharAt ⟨"é", 0⟩ 1 [] 'é' ∧
    positionAt ⟨"é", 0⟩ 0 = ⟨0, 1, 1⟩ ∧ positionAt ⟨"é", 0⟩ 1 = ⟨1, 1, 2⟩ :=
  ⟨⟨⟨[], by decide⟩, by decide, by decide⟩, ⟨⟨[], by decide⟩, by decide, by decide⟩,
    by decide +kernel, by decide +kernel⟩

end Source

end LosslessCss
