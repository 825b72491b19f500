import LosslessCss.Proofs.ByteScan
import LosslessCss.Proofs.Places

/-!
# Two ways to find a place

Line and column of a byte offset can be found in two ways.  A reader that goes through a source
keeps them as it goes: behind each stretch it adds the line feeds of the stretch to the line, and
counts columns from the last one of them (`Position.pass`).  Someone who asks for an offset out of
the blue searches a table with the starts of all lines, and counts columns from the start of the
line (`Source.lookUp`).  Both count bytes, leaving out those that continue a character.

Both are the place that one gets to by passing the bytes in front of the offset one after the other
(`Position.stepByte`), and for whole characters this is passing the characters.

## Main Definitions

* `Position.stepByte`, `Position.pass` : the place behind a byte, behind a stretch of bytes
* `Source.bytes`, `Source.lineStarts`, `Source.lookUp` : the table of the lines, and the place at an
  offset
* `Source.search` : binary search

## Main Statements

* `Position.pass_encode` : passing the bytes of a text is passing its characters
* `Source.positionAt_eq_lookUp` : the table tells the place at every offset
* `Source.IsPlace.positionAt_offset` : a place of the source is found by its offset
-/

namespace LosslessCss

open String (utf8Len utf8Len_cons utf8Len_append)
open Text (encode isContinuation)

/-- The byte that ends a line. -/
def lineFeed : UInt8 := 0x0A

/-! ### Counting -/

/-- The number of characters in a stretch of bytes. -/
def countChars (bs : List UInt8) : Nat := bs.countP fun b => !isContinuation b

/-- Where the last line feed of a stretch stands, if it has one. -/
def lastFeed? (bs : List UInt8) : Option Nat :=
  (bs.reverse.findIdx? (· == lineFeed)).map (bs.length - 1 - ·)

namespace Position

/-- The place behind one more byte. -/
def stepByte (p : Position) (b : UInt8) : Position :=
  if b = lineFeed then ⟨p.offset + 1, p.line + 1, 1⟩
  else ⟨p.offset + 1, p.line, p.column + if isContinuation b then 0 else 1⟩

/-- **The place behind a stretch of bytes**: columns are counted from its last line feed. -/
def pass (p : Position) (bs : List UInt8) : Position :=
  match lastFeed? bs with
  | some last =>
    ⟨p.offset + bs.length, p.line + bs.count lineFeed, countChars (bs.drop (last + 1)) + 1⟩
  | none => ⟨p.offset + bs.length, p.line, p.column + countChars bs⟩

end Position

@[simp]
theorem countChars_nil : countChars [] = 0 := rfl

theorem countChars_append (bs bs' : List UInt8) :
    countChars (bs ++ bs') = countChars bs + countChars bs' :=
  List.countP_append

theorem countChars_singleton (b : UInt8) :
    countChars [b] = if isContinuation b then 0 else 1 := by
  cases hb : isContinuation b <;> simp [countChars, hb]

theorem lastFeed?_snoc_lineFeed (bs : List UInt8) :
    lastFeed? (bs ++ [lineFeed]) = some bs.length := by
  simp [lastFeed?, List.findIdx?_cons]

theorem lastFeed?_snoc {b : UInt8} (hb : b ≠ lineFeed) (bs : List UInt8) :
    lastFeed? (bs ++ [b]) = lastFeed? bs := by
  have hother : (b == lineFeed) = false := beq_eq_false_iff_ne.mpr hb
  rw [lastFeed?, List.reverse_append, List.reverse_singleton, List.singleton_append,
    List.findIdx?_cons, hother]
  simp only [Bool.false_eq_true, if_false, Option.map_map, lastFeed?]
  congr 1
  funext i
  simp only [Function.comp_apply, List.length_append, List.length_singleton]
  omega

theorem lt_length_of_lastFeed? {bs : List UInt8} {last : Nat} (h : lastFeed? bs = some last) :
    last < bs.length := by
  obtain ⟨i, hi, rfl⟩ := Option.map_eq_some_iff.mp h
  have hlt := (List.findIdx?_eq_some_iff_getElem.mp hi).1
  rw [List.length_reverse] at hlt
  omega

theorem count_of_lastFeed?_eq_none {bs : List UInt8} (h : lastFeed? bs = none) :
    bs.count lineFeed = 0 := by
  rw [lastFeed?, Option.map_eq_none_iff, List.findIdx?_eq_none_iff] at h
  refine List.count_eq_zero.mpr fun hmem => ?_
  simpa using h lineFeed (List.mem_reverse.mpr hmem)

/-! ### Passing bytes -/

namespace Position

theorem stepByte_lineFeed (p : Position) :
    p.stepByte lineFeed = ⟨p.offset + 1, p.line + 1, 1⟩ := if_pos rfl

theorem stepByte_of_ne (p : Position) {b : UInt8} (hb : b ≠ lineFeed) :
    p.stepByte b = ⟨p.offset + 1, p.line, p.column + countChars [b]⟩ := by
  rw [stepByte, if_neg hb, countChars_singleton]

/-- **A stretch is passed byte by byte.** -/
theorem pass_eq (p : Position) (bs : List UInt8) : p.pass bs = bs.foldl stepByte p := by
  induction bs using List.reverseRecOn with
  | nil => rfl
  | append_singleton bs b ih =>
    rw [List.foldl_append, ← ih, List.foldl_cons, List.foldl_nil]
    by_cases hb : b = lineFeed
    · subst hb
      rw [stepByte_lineFeed, pass, pass, lastFeed?_snoc_lineFeed]
      -- A stretch without a line feed has none to count.
      cases hlast : lastFeed? bs with
      | none => simp [count_of_lastFeed?_eq_none hlast, Nat.add_assoc]
      | some last => simp [Nat.add_assoc]
    · rw [stepByte_of_ne _ hb, pass, pass, lastFeed?_snoc hb]
      cases hlast : lastFeed? bs with
      | none => simp [countChars_append, Nat.add_assoc]
      | some last =>
        have hinner := lt_length_of_lastFeed? hlast
        have hdrop : (bs ++ [b]).drop (last + 1) = bs.drop (last + 1) ++ [b] :=
          List.drop_append_of_le_length hinner
        simp [hdrop, hb, countChars_append, List.count_append, Nat.add_assoc, Nat.add_left_comm,
          Nat.add_comm 1]

theorem ne_lineFeed_of_high {b : UInt8} (hb : 128 ≤ b.toNat) : b ≠ lineFeed := by
  rintro rfl
  revert hb
  decide

/-- Bytes that continue a character count for the offset only. -/
theorem foldl_stepByte_continuation (p : Position) {bs : List UInt8}
    (hbs : ∀ b ∈ bs, 128 ≤ b.toNat ∧ isContinuation b = true) :
    bs.foldl stepByte p = ⟨p.offset + bs.length, p.line, p.column⟩ := by
  induction bs generalizing p with
  | nil => rfl
  | cons b bs ih =>
    obtain ⟨⟨hhigh, hb⟩, hbs⟩ := List.forall_mem_cons.mp hbs
    rw [List.foldl_cons, ih _ hbs, stepByte, if_neg (ne_lineFeed_of_high hhigh), hb,
      List.length_cons, Nat.add_assoc, Nat.add_comm 1]
    rfl

/-- **The bytes of a character** are passed like the character, and a place inside of it is behind
its column. -/
theorem foldl_stepByte_take (p : Position) (c : Char) {n : Nat} (hpos : n ≠ 0)
    (hn : n ≤ c.utf8Size) :
    ((String.utf8EncodeChar c).take n).foldl stepByte p =
      if n < c.utf8Size then ⟨p.offset + n, p.line, p.column + 1⟩ else p.step c := by
  have hlength := String.length_utf8EncodeChar c
  obtain ⟨m, rfl⟩ := Nat.exists_eq_succ_of_ne_zero hpos
  rcases Text.utf8EncodeChar_cases c with
    ⟨hc, hbytes, hself⟩ | ⟨hc, lead, tail, hbytes, hlead, hfirst, htail⟩
  · rw [hbytes] at hlength
    rw [List.length_singleton] at hlength
    have hline : UInt8.ofNat c.toNat = lineFeed ↔ c = '\n' := by
      rw [← UInt8.toNat_inj, UInt8.toNat_ofNat_of_lt' (hc.trans (by decide)), Char.ext_iff,
        ← UInt32.toNat_inj]
      rfl
    rw [if_neg (by omega), hbytes, List.take_succ_cons, List.take_nil, List.foldl_cons,
      List.foldl_nil, step, stepByte, hself, ← hlength]
    simp only [hline]
    rfl
  · have hne : c ≠ '\n' := by
      rintro rfl
      revert hc
      decide
    rw [hbytes, List.length_cons] at hlength
    rw [hbytes, List.take_succ_cons, List.foldl_cons, stepByte, if_neg (ne_lineFeed_of_high hlead),
      hfirst, foldl_stepByte_continuation _ fun b hb => htail b (List.mem_of_mem_take hb),
      List.length_take, step, if_neg hne]
    have hmin : min m tail.length = m := by omega
    have hplace : (if m + 1 < c.utf8Size then ⟨p.offset + (m + 1), p.line, p.column + 1⟩
        else ⟨p.offset + c.utf8Size, p.line, p.column + 1⟩ : Position) =
          ⟨p.offset + 1 + m, p.line, p.column + 1⟩ := by
      split <;> congr 1 <;> omega
    rw [hmin]
    exact hplace.symm

theorem foldl_stepByte_utf8EncodeChar (p : Position) (c : Char) :
    (String.utf8EncodeChar c).foldl stepByte p = p.step c := by
  have hchar := p.foldl_stepByte_take c c.utf8Size_pos.ne' le_rfl
  rwa [List.take_of_length_le (String.length_utf8EncodeChar c).le, if_neg (lt_irrefl _)] at hchar

/-- **Passing the bytes of a text** is passing its characters. -/
theorem pass_encode (p : Position) (cs : List Char) : p.pass (encode cs) = cs.foldl step p := by
  rw [pass_eq]
  induction cs generalizing p with
  | nil => rfl
  | cons c cs ih =>
    rw [Text.encode_cons, List.foldl_append, foldl_stepByte_utf8EncodeChar, ih, List.foldl_cons]

end Position

namespace Source

/-- **The place at an offset** is found by passing the bytes in front of it. -/
theorem placeAt_eq_foldl (p : Position) (n : Nat) (cs : List Char) :
    placeAt p n cs = ((encode cs).take n).foldl Position.stepByte p := by
  induction cs generalizing p n with
  | nil => simp [placeAt]
  | cons c cs ih =>
    have hlength := String.length_utf8EncodeChar c
    rw [placeAt, Text.encode_cons]
    by_cases hzero : n = 0
    · rw [if_pos hzero, hzero]
      rfl
    rw [if_neg hzero]
    by_cases hinside : n < c.utf8Size
    · have hchar := p.foldl_stepByte_take c hzero hinside.le
      rw [if_pos hinside] at hchar ⊢
      rw [List.take_append_of_le_length (by omega), hchar]
    · have hwhole : (String.utf8EncodeChar c).take n = String.utf8EncodeChar c :=
        List.take_of_length_le (by omega)
      rw [if_neg hinside, ih, List.take_append, hwhole, List.foldl_append,
        Position.foldl_stepByte_utf8EncodeChar, hlength]

/-! ### The table -/

/-- The bytes of the source. -/
def bytes (s : Source) : List UInt8 := encode s.text.toList

/-- Where lines start in a stretch of bytes, the first of which stands at the given offset. -/
def startsFrom : Nat → List UInt8 → List Nat
  | _, [] => []
  | n, b :: bs => if b = lineFeed then (n + 1) :: startsFrom (n + 1) bs else startsFrom (n + 1) bs

/-- **The table of the lines**: the offset at which each of them starts. -/
def lineStarts (s : Source) : List Nat := 0 :: startsFrom 0 s.bytes

/-- **Binary search** between two indices of a table: where the number stands, or else where it
would have to be put in. -/
def search (table : List Nat) (wanted lo hi : Nat) : Except Nat Nat :=
  if _between : lo < hi then
    let middle := lo + (hi - lo) / 2
    match compare (table.getD middle 0) wanted with
    | .eq => .ok middle
    | .lt => search table wanted (middle + 1) hi
    | .gt => search table wanted lo middle
  else .error lo
termination_by hi - lo

/-- The index of the line of an offset: one that is no line start is in the line whose start stands
in front of the place where the offset would have to be put in. -/
def lineAt (table : List Nat) (offset : Nat) : Nat :=
  match search table offset 0 table.length with
  | .ok line => line
  | .error next => next - 1

/-- **The place at an offset**, by the table. -/
def lookUp (s : Source) (offset : Nat) : Position :=
  let offset := min offset s.bytes.length
  let line := lineAt s.lineStarts offset
  let start := s.lineStarts.getD line 0
  ⟨offset, line + 1, countChars ((s.bytes.drop start).take (offset - start)) + 1⟩

theorem startsFrom_append (n : Nat) (bs bs' : List UInt8) :
    startsFrom n (bs ++ bs') = startsFrom n bs ++ startsFrom (n + bs.length) bs' := by
  induction bs generalizing n with
  | nil => rfl
  | cons b bs ih =>
    rw [List.cons_append, startsFrom, startsFrom, ih, List.length_cons, Nat.add_right_comm n 1]
    split <;> rfl

theorem lt_of_mem_startsFrom {n a : Nat} {bs : List UInt8} (ha : a ∈ startsFrom n bs) : n < a := by
  induction bs generalizing n with
  | nil => cases ha
  | cons b bs ih =>
    rw [startsFrom] at ha
    split at ha
    · rcases List.mem_cons.mp ha with rfl | ha
      · exact Nat.lt_succ_self n
      · exact (Nat.lt_succ_self n).trans (ih ha)
    · exact (Nat.lt_succ_self n).trans (ih ha)

/-- **Binary search finds the index** with the smaller numbers in front of it and the greater ones
behind it. -/
theorem search_eq {table : List Nat} {wanted i : Nat}
    (hsmaller : ∀ j < i, table.getD j 0 < wanted)
    (hself : i < table.length → wanted ≤ table.getD i 0)
    (hgreater : ∀ j, i < j → j < table.length → wanted < table.getD j 0) {lo hi : Nat}
    (hlo : lo ≤ i) (hhi : i ≤ hi) (hend : hi ≤ table.length) :
    search table wanted lo hi =
      if i < hi ∧ table.getD i 0 = wanted then .ok i else .error i := by
  -- The index stays between the bounds of the search.
  fun_induction search table wanted lo hi with
  | case1 lo hi hbetween middle hcompare =>
    have hfound := compare_eq_iff_eq.mp hcompare
    obtain rfl : middle = i := by
      rcases lt_trichotomy middle i with hlt | heq | hgt
      · exact absurd hfound (hsmaller middle hlt).ne
      · exact heq
      · exact absurd hfound (hgreater middle hgt (by omega)).ne'
    rw [if_pos ⟨by omega, hfound⟩]
  | case2 lo hi hbetween middle hcompare ih =>
    have hsmall := compare_lt_iff_lt.mp hcompare
    have hmiddle : middle < i := by
      by_contra hnot
      rcases Nat.lt_or_eq_of_le (Nat.le_of_not_lt hnot) with hlt | rfl
      · exact absurd hsmall (hgreater middle hlt (by omega)).asymm
      · exact absurd hsmall (hself (by omega)).not_gt
    exact ih hmiddle hhi hend
  | case3 lo hi hbetween middle hcompare ih =>
    have hgreat := compare_gt_iff_gt.mp hcompare
    have hmiddle : i ≤ middle := by
      by_contra hnot
      exact absurd hgreat (hsmaller middle (Nat.lt_of_not_le hnot)).asymm
    rw [ih hlo hmiddle (by omega)]
    refine if_congr (and_congr_left fun hfound => ?_) rfl rfl
    -- The number in the middle is too great to be the one that is wanted.
    have hne : i ≠ middle := by
      rintro rfl
      exact hgreat.ne' hfound
    omega
  | case4 lo hi hbetween =>
    obtain rfl : lo = i := by omega
    rw [if_neg (by omega)]

/-- The line of an offset is the last one that does not start behind it. -/
theorem lineAt_eq {front back : List Nat} {last offset : Nat} (hfront : ∀ a ∈ front, a < last)
    (hlast : last ≤ offset) (hback : ∀ a ∈ back, offset < a) :
    lineAt (front ++ last :: back) offset = front.length := by
  have hat : (front ++ last :: back).getD front.length 0 = last := by simp
  have hsmaller (j : Nat) (hj : j < front.length) : (front ++ last :: back).getD j 0 < last := by
    rw [List.getD_append _ _ _ _ hj, List.getD_eq_getElem _ _ hj]
    exact hfront _ (List.getElem_mem hj)
  have hgreater (j : Nat) (hj : front.length < j) (hend : j < (front ++ last :: back).length) :
      offset < (front ++ last :: back).getD j 0 := by
    obtain ⟨k, rfl⟩ := Nat.exists_eq_add_of_lt hj
    have hk : k < back.length := by
      rw [List.length_append, List.length_cons] at hend
      omega
    have hindex : front.length + k + 1 - front.length = k + 1 := by omega
    rw [List.getD_append_right _ _ _ _ (by omega), hindex, List.getD_cons_succ,
      List.getD_eq_getElem _ _ hk]
    exact hback _ (List.getElem_mem hk)
  have hlength : front.length < (front ++ last :: back).length := by simp
  rcases hlast.eq_or_lt with rfl | hlt
  · have hfound := search_eq hsmaller (fun _ => hat.ge) hgreater (Nat.zero_le _) hlength.le le_rfl
    rw [lineAt, hfound, if_pos ⟨hlength, hat⟩]
  · -- The offset would have to be put in behind the start of its line.
    have hnext : front.length + 1 ≤ (front ++ last :: back).length := hlength
    have hnot := search_eq (i := front.length + 1)
      (fun j hj => (Nat.lt_or_eq_of_le (Nat.le_of_lt_succ hj)).elim
        (fun hj => (hsmaller j hj).trans hlt) fun hj => hj ▸ hat.trans_lt hlt)
      (fun hend => (hgreater _ (Nat.lt_succ_self _) hend).le)
      (fun j hj => hgreater j ((Nat.lt_succ_self _).trans hj)) (Nat.zero_le _) hnext le_rfl
    rw [lineAt, hnot, if_neg fun hfound => (hgreater _ (Nat.lt_succ_self _) hfound.1).ne' hfound.2]
    rfl

/-- **The line starts of a stretch** end with the start of its last line, in which columns are
counted. -/
theorem exists_startsFrom (bs : List UInt8) : ∃ front last, 0 :: startsFrom 0 bs = front ++ [last] ∧
    (∀ a ∈ front, a < last) ∧ last ≤ bs.length ∧
      bs.foldl Position.stepByte .start =
        ⟨bs.length, front.length + 1, countChars (bs.drop last) + 1⟩ := by
  induction bs using List.reverseRecOn with
  | nil => exact ⟨[], 0, rfl, by simp, le_rfl, rfl⟩
  | append_singleton bs b ih =>
    obtain ⟨front, last, hstarts, hfront, hlast, hplace⟩ := ih
    rw [startsFrom_append, ← List.cons_append, hstarts, List.foldl_append, hplace, List.foldl_cons,
      List.foldl_nil, List.length_append, List.length_singleton, Nat.zero_add]
    by_cases hb : b = lineFeed
    · subst hb
      refine ⟨front ++ [last], bs.length + 1, rfl, ?_, le_rfl, ?_⟩
      · intro a ha
        rcases List.mem_append.mp ha with ha | ha
        · exact (hfront a ha).trans_le (hlast.trans (Nat.le_succ _))
        · exact (List.mem_singleton.mp ha).trans_lt (Nat.lt_succ_of_le hlast)
      · have hdrop : (bs ++ [lineFeed]).drop (bs.length + 1) = [] := by simp
        rw [Position.stepByte_lineFeed, hdrop, List.length_append]
        rfl
    · refine ⟨front, last, ?_, hfront, hlast.trans (Nat.le_succ _), ?_⟩
      · simp [startsFrom, hb]
      · rw [Position.stepByte_of_ne _ hb, List.drop_append_of_le_length hlast, countChars_append,
          Nat.add_right_comm]

/-- **The table tells the place at every offset**, inside of characters and behind the end, too. -/
theorem positionAt_eq_lookUp (s : Source) (offset : Nat) :
    s.positionAt offset = s.lookUp offset := by
  have hclamp : s.bytes.take offset = s.bytes.take (min offset s.bytes.length) := by
    rw [List.take_eq_take_min]
  rw [positionAt, placeAt_eq_foldl, lookUp]
  change (s.bytes.take offset).foldl _ _ = _
  rw [hclamp]
  have hle : min offset s.bytes.length ≤ s.bytes.length := Nat.min_le_right _ _
  generalize min offset s.bytes.length = n at hle
  obtain ⟨front, last, hstarts, hfront, hlast, hplace⟩ := exists_startsFrom (s.bytes.take n)
  have hlength : (s.bytes.take n).length = n := List.length_take_of_le hle
  rw [hlength] at hlast hplace
  -- The lines that start behind the offset stand in the table behind all others.
  have htable : s.lineStarts = front ++ last :: startsFrom n (s.bytes.drop n) := by
    have hsplit := startsFrom_append 0 (s.bytes.take n) (s.bytes.drop n)
    rw [List.take_append_drop, hlength, Nat.zero_add] at hsplit
    rw [lineStarts, hsplit, ← List.cons_append, hstarts, List.append_assoc]
    rfl
  have hline : lineAt s.lineStarts n = front.length := by
    rw [htable]
    exact lineAt_eq hfront hlast fun a ha => lt_of_mem_startsFrom ha
  have hat : s.lineStarts.getD front.length 0 = last := by
    rw [htable]
    simp
  rw [hline, hat, hplace, List.drop_take]

end Source

/-! ### Places -/

/-- **Lines and columns are not more than bytes**, and there is a column. -/
def Position.Narrow (p : Position) : Prop := 1 ≤ p.column ∧ p.line + p.column ≤ p.offset + 2

/-- Each byte adds to one of line and column at most. -/
theorem Position.narrow_foldl_stepByte {p : Position} (hp : p.Narrow) (bs : List UInt8) :
    (bs.foldl stepByte p).Narrow := by
  induction bs generalizing p with
  | nil => exact hp
  | cons b bs ih =>
    obtain ⟨hcolumn, hsum⟩ := hp
    refine ih ?_
    rw [stepByte]
    split
    · exact ⟨le_rfl, by dsimp only; omega⟩
    · refine ⟨hcolumn.trans (Nat.le_add_right _ _), ?_⟩
      dsimp only
      split <;> omega

theorem Position.narrow_foldl_step {p : Position} (hp : p.Narrow) (cs : List Char) :
    (cs.foldl step p).Narrow := by
  rw [← pass_encode, pass_eq]
  exact narrow_foldl_stepByte hp _

namespace Source

namespace IsPlace

variable {s : Source} {p : Position}

/-- **A place is the one at its offset.** -/
theorem positionAt_offset (hp : s.IsPlace p) : s.positionAt p.offset = p := by
  obtain ⟨front, behind, htext, rfl⟩ := hp
  have hbytes : (encode s.text.toList).take front.utf8ByteSize = encode front.toList := by
    rw [htext, String.toList_append, ← String.utf8Len_toList, Text.take_encode_append]
  rw [Position.advance_offset, Position.start_offset, Nat.zero_add, positionAt, placeAt_eq_foldl,
    hbytes, ← Position.pass_eq, Position.pass_encode, Position.advance]

theorem line_add_column_le (hp : s.IsPlace p) : p.line + p.column ≤ p.offset + 2 := by
  obtain ⟨front, -, -, rfl⟩ := hp
  exact (Position.narrow_foldl_step ⟨le_rfl, le_rfl⟩ front.toList).2

end IsPlace

end Source

end LosslessCss
