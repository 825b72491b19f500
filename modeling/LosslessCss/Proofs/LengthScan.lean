import LosslessCss.Value.LengthScan
import LosslessCss.Proofs.FieldEdits
import LosslessCss.Proofs.SettledLengths

/-!
# All and only the lengths that a scan finds

Converting a value replaces ranges of its bytes.  The ranges are those of the lengths that a scan of
the bytes finds, and every other byte stays (`Value.patched_scan`).  The scan goes by places in the
text and looks back for the sign of a number, while a value is converted by going forward, where a
sign looks ahead for its number.  Both agree because a sign that was passed had a reason that still
holds when the scan looks back (`Value.Length.Passed`).

A place inside a length has a character of the length in front of it, so no length is found there.
Hence the scan misses none (`Value.Length.mem_scan_iff`).

## Main Definitions

* `Value.Length.Passed` : what a scan knows about a sign behind it
* `Value.Length.Found.patch` : the patch that replaces a length

## Main Statements

* `Value.Length.mem_scan_iff` : the lengths that a scan finds
* `Value.Length.splice_scan` : replacing them converts the text
* `Value.pxToRem_patches_scan`
-/

namespace LosslessCss.Value

open String (utf8Len utf8Len_append utf8Len_cons)
open Text

namespace Length

/-! ### What a scan finds -/

section Scan

variable {text : List Char} {place : Nat} {found : Found}

theorem exists_of_drop_eq_cons {c : Char} {cs : List Char} (h : text.drop place = c :: cs) :
    ∃ hlt : place < text.length, text[place] = c ∧ text.drop (place + 1) = cs := by
  have hlt : place < text.length := by
    by_contra hle
    rw [List.drop_eq_nil_of_le (by omega)] at h
    cases h
  exact ⟨hlt, List.cons.inj ((List.drop_eq_getElem_cons hlt).symm.trans h)⟩

theorem scan_of_drop_nil (h : text.drop place = []) : scan text place = [] := by
  rw [scan, dif_neg (Nat.not_lt.mpr (List.drop_eq_nil_iff.mp h))]

/-- **One step of a scan** from a place in the text. -/
theorem scan_skip {c : Char} {cs : List Char} {n : Nat} (h : text.drop place = c :: cs)
    (hprotected : protectedTail? (text.take place).getLast? c cs = some n) :
    scan text place = .skipped place (place + n + 1) :: scan text (place + n + 1) := by
  obtain ⟨hlt, rfl, rfl⟩ := exists_of_drop_eq_cons h
  rw [scan, dif_pos hlt]
  split
  · next m hsome =>
    obtain rfl := Option.some.inj (hprotected.symm.trans hsome)
    rfl
  · next hnone => cases hprotected.symm.trans hnone

theorem scan_find {c : Char} {cs : List Char} (h : text.drop place = c :: cs)
    (hprotected : protectedTail? (text.take place).getLast? c cs = none)
    (hfound : found? text place = some found) :
    scan text place = .length found :: scan text found.stop := by
  obtain ⟨hlt, rfl, rfl⟩ := exists_of_drop_eq_cons h
  rw [scan, dif_pos hlt]
  split
  · next m hsome => cases hprotected.symm.trans hsome
  · split
    · next found' hsome =>
      obtain rfl := Option.some.inj (hfound.symm.trans hsome)
      rfl
    · next hnone => cases hfound.symm.trans hnone

/-- A scan passes what starts neither a stretch nor a number. -/
theorem scan_pass {c : Char} {cs : List Char} (h : text.drop place = c :: cs)
    (hprotected : protectedTail? (text.take place).getLast? c cs = none)
    (hfound : found? text place = none) : scan text place = scan text (place + 1) := by
  obtain ⟨hlt, rfl, rfl⟩ := exists_of_drop_eq_cons h
  rw [scan, dif_pos hlt]
  split
  · next m hsome => cases hprotected.symm.trans hsome
  · split
    · next found' hsome => cases hfound.symm.trans hsome
    · rfl

/-- A length that was found has a number, and a sign that it may have. -/
theorem exists_of_found? (h : found? text place = some found) :
    ∃ p n sign, unsigned? (text.drop place) = some (p, n) ∧
      signBehind? (text.take place).reverse = some sign ∧ found.stop = place + n := by
  unfold found? at h
  split at h
  · next p n sign hunsigned hsign =>
    exact ⟨p, n, sign, hunsigned, hsign, congrArg Found.stop (Option.some.inj h).symm⟩
  · cases h

/-- A number is glued to a name in front of it. -/
theorem signBehind?_of_isNameChar {c : Char} (hsign : ¬(c = '+' ∨ c = '-')) (hc : isNameChar c = true)
    (front : List Char) : signBehind? (c :: front) = none := by
  rw [signBehind?, if_neg hsign, if_pos hc]

/-- A number is not found in the middle of another one. -/
theorem signBehind?_of_isNumeric {c : Char} (hc : isNumeric c = true) (front : List Char) :
    signBehind? (c :: front) = none :=
  signBehind?_of_isNameChar (by rintro (rfl | rfl) <;> cases hc) (isNameChar_of_isNumeric hc) front

/-- **Inside a length** no length is found. -/
theorem found?_inside (h : found? text place = some found) {i : Nat} (hplace : place < i)
    (hstop : i < found.stop) : found? text i = none := by
  obtain ⟨p, n, sign, hunsigned, -, hn⟩ := exists_of_found? h
  obtain ⟨body, last, rest, hdrop, rfl, hnumeric, -⟩ := exists_of_unsigned? hunsigned
  obtain ⟨k, rfl⟩ := Nat.exists_eq_add_of_lt hplace
  have htake : text.take (place + k + 1) = text.take place ++ body.take (k + 1) := by
    rw [Nat.add_assoc, List.take_add, hdrop, List.take_append_of_le_length (by omega)]
  obtain ⟨front, c, hbody⟩ : ∃ front c, body.take (k + 1) = front ++ [c] := by
    refine (List.eq_nil_or_concat' _).resolve_left fun hnil => ?_
    have hlength := congrArg List.length hnil
    rw [List.length_take, List.length_nil] at hlength
    omega
  have hc : c ∈ body := List.mem_of_mem_take (hbody ▸ List.mem_append_right _ List.mem_cons_self)
  have hsign : signBehind? (text.take (place + k + 1)).reverse = none := by
    rw [htake, hbody]
    simpa using signBehind?_of_isNumeric (hnumeric c hc) _
  unfold found?
  rw [hsign]
  split
  · next hnone => cases hnone
  · rfl

/-- What a scan skips starts where the scan starts, or behind. -/
theorem le_of_skipped_mem_scan {start stop : Nat} (h : .skipped start stop ∈ scan text place) :
    place ≤ start := by
  fun_induction scan text place with
  | case1 place _ n _ ih =>
    rcases List.mem_cons.mp h with heq | h
    · cases heq
      exact le_rfl
    · have := ih h
      omega
  | case2 place _ _ found hfound hlt ih =>
    rcases List.mem_cons.mp h with heq | h
    · cases heq
    · have := ih h
      omega
  | case3 place _ _ _ ih =>
    have := ih h
    omega
  | case4 => cases h

/-- **All and only the lengths outside what is skipped** are found by a scan. -/
theorem mem_scan_iff : .length found ∈ scan text place ↔
    ∃ i, place ≤ i ∧ found? text i = some found ∧
      ∀ start stop, .skipped start stop ∈ scan text place → ¬(start ≤ i ∧ i < stop) := by
  fun_induction scan text place with
  | case1 place hplace n hprotected ih =>
    rw [List.mem_cons, ih]
    constructor
    · rintro (heq | ⟨i, hi, hfound, hout⟩)
      · cases heq
      · refine ⟨i, by omega, hfound, fun start stop hmem => ?_⟩
        rcases List.mem_cons.mp hmem with heq | hmem
        · cases heq
          omega
        · exact hout start stop hmem
    · rintro ⟨i, hi, hfound, hout⟩
      have hhead := hout _ _ List.mem_cons_self
      exact .inr ⟨i, by omega, hfound, fun start stop hmem =>
        hout start stop (List.mem_cons_of_mem _ hmem)⟩
  | case2 place hplace hprotected found' hfound' hlt ih =>
    rw [List.mem_cons, ih]
    constructor
    · rintro (heq | ⟨i, hi, hfound, hout⟩)
      · cases heq
        refine ⟨place, le_rfl, hfound', fun start stop hmem => ?_⟩
        rcases List.mem_cons.mp hmem with heq | hmem
        · cases heq
        · have := le_of_skipped_mem_scan hmem
          omega
      · refine ⟨i, by omega, hfound, fun start stop hmem => ?_⟩
        rcases List.mem_cons.mp hmem with heq | hmem
        · cases heq
        · exact hout start stop hmem
    · rintro ⟨i, hi, hfound, hout⟩
      by_cases hplace' : i = place
      · subst hplace'
        rw [hfound'] at hfound
        exact .inl (congrArg Stretch.length (Option.some.inj hfound).symm)
      · by_cases hinside : i < found'.stop
        · rw [found?_inside hfound' (by omega) hinside] at hfound
          cases hfound
        · exact .inr ⟨i, by omega, hfound, fun start stop hmem =>
            hout start stop (List.mem_cons_of_mem _ hmem)⟩
  | case3 place hplace hprotected hfound' ih =>
    rw [ih]
    refine exists_congr fun i => ⟨fun ⟨hi, h⟩ => ⟨by omega, h⟩, fun ⟨hi, hfound, hout⟩ =>
      ⟨?_, hfound, hout⟩⟩
    by_contra hle
    obtain rfl : i = place := by omega
    rw [hfound'] at hfound
    cases hfound
  | case4 place hplace =>
    refine ⟨fun hmem => absurd hmem List.not_mem_nil, ?_⟩
    rintro ⟨i, hi, hfound, -⟩
    obtain ⟨p, n, sign, hunsigned, -⟩ := exists_of_found? hfound
    rw [List.drop_eq_nil_of_le (by omega)] at hunsigned
    cases hunsigned

end Scan

/-! ### Numbers in bytes -/

theorem isNumeric_of_high {d : Char} (hd : 128 ≤ d.toNat) : isNumeric d = false := by
  have hdigit : d.isDigit = false := by
    by_contra hdigit
    simp only [Bool.not_eq_false, Char.isDigit, Bool.and_eq_true, decide_eq_true_eq] at hdigit
    have hle : d.toNat ≤ 57 := UInt32.le_iff_toNat_le.mp hdigit.2
    omega
  simp (disch := decide) [isNumeric, hdigit, toLower_of_high hd, Token.ne_of_high hd]

/-- **A number of bytes** is a length if the number of characters is one. -/
theorem unsigned?_spell (cs : List Char) : unsigned? (spell cs) = unsigned? cs := by
  have hlow : ∀ c ∈ cs.takeWhile isNumeric, c.toNat < 128 := fun c hc => by
    by_contra hhigh
    have hnumeric := List.mem_takeWhile_imp hc
    rw [isNumeric_of_high (by omega)] at hnumeric
    cases hnumeric
  have hstop : ∀ c ∈ (cs.dropWhile isNumeric).head?, isNumeric c = false := by
    intro c hc
    have hnot := List.head?_dropWhile_not isNumeric cs
    rwa [Option.mem_def.mp hc] at hnot
  have hstop' : ∀ c ∈ (spell (cs.dropWhile isNumeric)).head?, isNumeric c = false := by
    have hany := any_head?_spell (fun d hd => isNumeric_of_high hd) (cs.dropWhile isNumeric)
    intro c hc
    rw [Option.mem_def.mp hc, Option.any_some] at hany
    rw [hany]
    cases hhead : (cs.dropWhile isNumeric).head? with
    | none => rfl
    | some d => exact hstop d hhead
  have hname := any_head?_spell (fun d hd => isNameChar_of_high hd) (cs.dropWhile isNumeric)
  have hcut : spell cs = cs.takeWhile isNumeric ++ spell (cs.dropWhile isNumeric) := by
    conv_lhs => rw [← List.takeWhile_append_dropWhile (p := isNumeric) (l := cs)]
    rw [spell_append, spell_of_forall hlow]
  rw [hcut, unsigned?_append_congr hstop' hstop hname, List.takeWhile_append_dropWhile]

/-- The last byte of a text. -/
theorem exists_last_spell (front : List Char) (c : Char) :
    ∃ bytes last, spell (front ++ [c]) = bytes ++ [last] ∧
      (c.toNat < 128 ∧ last = c ∧ bytes = spell front ∨ 128 ≤ c.toNat ∧ 128 ≤ last.toNat) := by
  obtain ⟨first, others, hspelled, hspell⟩ := exists_spelled c
  rw [spell_append, hspell, spell_nil, List.append_nil]
  rcases hspelled.start with ⟨rfl, rfl⟩ | ⟨hc, hfirst⟩
  · refine ⟨spell front, first, rfl, ?_⟩
    by_cases hlow : first.toNat < 128
    · exact .inl ⟨hlow, rfl, rfl⟩
    · exact .inr ⟨by omega, by omega⟩
  · rcases List.eq_nil_or_concat' others with rfl | ⟨others, last, rfl⟩
    · exact ⟨spell front, first, rfl, .inr ⟨hc, hfirst⟩⟩
    · exact ⟨spell front ++ first :: others, last, by simp, .inr ⟨hc, hspelled.high last (by simp)⟩⟩

theorem any_getLast?_spell (front : List Char) :
    (spell front).getLast?.any isNameChar = front.getLast?.any isNameChar := by
  rcases List.eq_nil_or_concat' front with rfl | ⟨front, c, rfl⟩
  · rfl
  · obtain ⟨bytes, last, hspell, ⟨-, rfl, -⟩ | ⟨hc, hlast⟩⟩ := exists_last_spell front c
    · rw [hspell, List.getLast?_concat, List.getLast?_concat]
    · rw [hspell, List.getLast?_concat, List.getLast?_concat, Option.any_some, Option.any_some,
        isNameChar_of_high hc, isNameChar_of_high hlast]

/-- **The sign in front of a number** is found in the bytes if it is found in the text. -/
theorem signBehind?_spell (front : List Char) :
    signBehind? (spell front).reverse = signBehind? front.reverse := by
  rcases List.eq_nil_or_concat' front with rfl | ⟨front, c, rfl⟩
  · rfl
  · have hnone {d : Char} (hd : 128 ≤ d.toNat) (front : List Char) :
        signBehind? (d :: front) = none :=
      signBehind?_of_isNameChar (by simp (disch := decide) [Token.ne_of_high hd])
        (isNameChar_of_high hd) front
    obtain ⟨bytes, last, hspell, ⟨-, rfl, rfl⟩ | ⟨hc, hlast⟩⟩ := exists_last_spell front c
    · rw [hspell, List.reverse_append, List.reverse_append, List.reverse_singleton,
        List.singleton_append, List.singleton_append, signBehind?, signBehind?, List.head?_reverse,
        List.head?_reverse, any_getLast?_spell]
    · rw [hspell, List.reverse_append, List.reverse_append, List.reverse_singleton,
        List.reverse_singleton, List.singleton_append, List.singleton_append, hnone hc, hnone hlast]

/-! ### The scan of the bytes -/

section Bytes

variable {front rest : List Char}

theorem drop_spell_append (front rest : List Char) :
    (spell (front ++ rest)).drop (utf8Len front) = spell rest := by
  rw [spell_append, ← length_spell, List.drop_left]

theorem take_spell_append (front rest : List Char) :
    (spell (front ++ rest)).take (utf8Len front) = spell front := by
  rw [spell_append, ← length_spell, List.take_left]

/-- The length that is found where the rest of a text starts. -/
theorem found?_eq_some {p : Pixels} {n : Nat} {sign : Option Char}
    (hp : unsigned? rest = some (p, n)) (hsign : signBehind? front.reverse = some sign) :
    found? (spell (front ++ rest)) (utf8Len front) =
      some ⟨utf8Len front - sign.toList.length, utf8Len front + n,
        { p with negative := sign == some '-' }⟩ := by
  rw [found?, drop_spell_append, take_spell_append, unsigned?_spell, signBehind?_spell, hp, hsign]

/-- Nothing is found without a number, or if the number belongs to a name. -/
theorem found?_eq_none (h : unsigned? rest = none ∨ signBehind? front.reverse = none) :
    found? (spell (front ++ rest)) (utf8Len front) = none := by
  rw [found?, drop_spell_append, take_spell_append, unsigned?_spell, signBehind?_spell]
  rcases h with h | h
  · rw [h]
  · rw [h]
    cases unsigned? rest <;> rfl

/-- The bytes that continue a character are passed by a scan. -/
theorem scan_high {text before ds rest : List Char} (hds : ∀ d ∈ ds, 128 ≤ d.toNat)
    (htext : text = before ++ (ds ++ rest)) :
    scan text before.length = scan text (before.length + ds.length) := by
  induction ds generalizing before with
  | nil => rfl
  | cons d ds ih =>
    obtain ⟨hd, hds⟩ := List.forall_mem_cons.mp hds
    have hdrop : text.drop before.length = d :: (ds ++ rest) := by
      rw [htext, List.drop_left]
      rfl
    have hfound : found? text before.length = none := by
      have hnumeric := isNumeric_of_high hd
      simp only [isNumeric, Bool.or_eq_false_iff, beq_eq_false_iff_ne] at hnumeric
      rw [found?, hdrop, unsigned?_cons_eq_none hnumeric.1.1.1 hnumeric.1.1.2]
    have htext' : text = (before ++ [d]) ++ (ds ++ rest) := by simp [htext]
    have hnext := ih hds htext'
    rw [scan_pass hdrop (protectedTail?_of_high hd _ _) hfound]
    rw [List.length_append, List.length_singleton] at hnext
    rw [hnext, List.length_cons]
    congr 1
    omega

/-- Stretches start with ASCII characters. -/
theorem lt_of_protected {previous : Option Char} {c : Char} {cs : List Char} {n : Nat}
    (h : protectedTail? previous c cs = some n) : c.toNat < 128 := by
  by_contra hhigh
  rw [protectedTail?_of_high (by omega)] at h
  cases h

variable {c : Char} {cs : List Char}

/-- **One step of the scan of the bytes**: a stretch is skipped. -/
theorem scan_spell_of_protected {n : Nat} (h : protectedTail? front.getLast? c cs = some n) :
    scan (spell (front ++ c :: cs)) (utf8Len front) =
      .skipped (utf8Len front) (utf8Len (front ++ c :: cs.take n)) ::
        scan (spell (front ++ c :: cs)) (utf8Len (front ++ c :: cs.take n)) := by
  have hlow := lt_of_protected h
  obtain ⟨first, others, hspelled, -⟩ := exists_spelled c
  obtain ⟨rfl, rfl⟩ := hspelled.start.resolve_right fun hhigh => by omega
  have hdrop := (drop_spell_append front (first :: cs)).trans (spell_cons_of_lt hlow cs)
  have hprotected := protectedTail?_spell (any_getLast?_spell front) hspelled cs
  rw [h, List.nil_append, Option.map_some, ← take_spell_append front (first :: cs)] at hprotected
  have hstop : utf8Len front + bytesOf cs n + 1 = utf8Len (front ++ first :: cs.take n) := by
    rw [utf8Len_append, utf8Len_cons, utf8Size_of_lt hlow, bytesOf, Nat.add_assoc]
  rw [scan_skip hdrop hprotected, hstop]

/-- **One step of the scan of the bytes**: a character is passed, with all its bytes. -/
theorem scan_spell_of_none (h : protectedTail? front.getLast? c cs = none)
    (hfound : found? (spell (front ++ c :: cs)) (utf8Len front) = none) :
    scan (spell (front ++ c :: cs)) (utf8Len front) =
      scan (spell (front ++ c :: cs)) (utf8Len (front ++ [c])) := by
  obtain ⟨first, others, hspelled, hspell⟩ := exists_spelled c
  have hdrop := (drop_spell_append front (c :: cs)).trans (hspell cs)
  have hprotected := protectedTail?_spell (any_getLast?_spell front) hspelled cs
  rw [h, Option.map_none] at hprotected
  rw [← take_spell_append front (c :: cs)] at hprotected
  rw [scan_pass hdrop hprotected hfound]
  have htext : spell (front ++ c :: cs) = (spell front ++ [first]) ++ (others ++ spell cs) := by
    rw [spell_append, hspell]
    simp
  have hothers := scan_high hspelled.high htext
  rw [List.length_append, List.length_singleton, length_spell] at hothers
  rw [hothers, utf8Len_append, utf8Len_cons, ← hspelled.size]
  congr 1
  simp
  omega

/-- **What a scan knows about a sign** right behind it: no number that is a length follows. -/
def Passed (front rest : List Char) : Prop :=
  ∀ sign, signBehind? front.reverse = some (some sign) → unsigned? rest = none

/-- A sign is no number. -/
theorem unsigned?_of_sign (hc : c = '+' ∨ c = '-') (cs : List Char) : unsigned? (c :: cs) = none := by
  rcases hc with rfl | rfl <;> exact unsigned?_cons_eq_none rfl (by decide) cs

/-- A number has no sign if neither a name nor a plus sign is in front. -/
theorem signBehind?_eq_some_none_iff (front : List Char) :
    signBehind? front.reverse = some none ↔
      front.getLast?.any (fun b => isNameChar b || b == '+') = false := by
  rcases List.eq_nil_or_concat' front with rfl | ⟨front, b, rfl⟩
  · simp [signBehind?]
  · rw [List.reverse_append, List.reverse_singleton, List.singleton_append, signBehind?,
      List.getLast?_concat, Option.any_some]
    by_cases hsign : b = '+' ∨ b = '-'
    · rw [if_pos hsign]
      rcases hsign with rfl | rfl <;> simp [isNameChar]
    · have hplus : b ≠ '+' := fun hplus => hsign (.inl hplus)
      rw [if_neg hsign]
      cases isNameChar b <;> simp [hplus]

/-- **Where no length starts** none is found. -/
theorem found?_of_pixels?_none (hpassed : Passed front (c :: cs))
    (h : pixels? front.getLast? c cs = none) :
    found? (spell (front ++ c :: cs)) (utf8Len front) = none := by
  unfold pixels? at h
  split at h
  · next hsign => exact found?_eq_none (.inl (unsigned?_of_sign hsign cs))
  · next hsign =>
    split at h
    · next hglued =>
      cases hbehind : signBehind? front.reverse with
      | none => exact found?_eq_none (.inr hbehind)
      | some sign =>
        cases sign with
        | none =>
          rw [(signBehind?_eq_some_none_iff front).mp hbehind] at hglued
          cases hglued
        | some sign => exact found?_eq_none (.inl (hpassed sign hbehind))
    · exact found?_eq_none (.inl (Option.map_eq_none_iff.mp h))

/-- The characters of an unsigned length are ASCII characters. -/
theorem utf8Len_take_of_unsigned? {p : Pixels} {n : Nat} (h : unsigned? cs = some (p, n)) :
    utf8Len (cs.take n) = n := by
  obtain ⟨number, rest, rfl, rfl, hnumeric⟩ := exists_numeric_of_unsigned? h
  have hlow : ∀ c ∈ number, c.toNat < 128 := by
    intro c hc
    by_contra hhigh
    have hnot := hnumeric c hc
    rw [isNumeric_of_high (by omega)] at hnot
    cases hnot
  rw [List.take_left, ← length_spell, spell_of_forall hlow]

theorem negative_of_unsigned? {p : Pixels} {n : Nat} (h : unsigned? cs = some (p, n)) :
    p.negative = false := by
  rw [unsigned?_eq, Option.ite_none_right_eq_some] at h
  rw [← (Prod.mk.inj (Option.some.inj h.2)).1]

/-- **One step of the scan of the bytes**: a number is found, and the sign behind the scan. -/
theorem scan_spell_of_number {p : Pixels} {n : Nat} {sign : Option Char}
    (hp : unsigned? rest = some (p, n)) (hsign : signBehind? front.reverse = some sign) :
    scan (spell (front ++ rest)) (utf8Len front) =
      .length ⟨utf8Len front - sign.toList.length, utf8Len (front ++ rest.take n),
          { p with negative := sign == some '-' }⟩ ::
        scan (spell (front ++ rest)) (utf8Len (front ++ rest.take n)) := by
  cases rest with
  | nil => cases hp
  | cons c cs =>
    obtain ⟨first, others, hspelled, hspell⟩ := exists_spelled c
    have hdrop := (drop_spell_append front (c :: cs)).trans (hspell cs)
    have hprotected := protectedTail?_spell (any_getLast?_spell front) hspelled cs
    have hnone : protectedTail? front.getLast? c cs = none := by
      cases hcase : protectedTail? front.getLast? c cs with
      | none => rfl
      | some m =>
        rw [unsigned?_of_protected hcase] at hp
        cases hp
    rw [hnone, Option.map_none, ← take_spell_append front (c :: cs)] at hprotected
    rw [scan_find hdrop hprotected (found?_eq_some hp hsign), utf8Len_append,
      utf8Len_take_of_unsigned? hp]

/-- **One step of the scan of the bytes**: a length is found. -/
theorem scan_spell_of_length {p : Pixels} {n : Nat} (h : protectedTail? front.getLast? c cs = none)
    (hp : pixels? front.getLast? c cs = some (p, n)) :
    scan (spell (front ++ c :: cs)) (utf8Len front) =
      .length ⟨utf8Len front, utf8Len (front ++ c :: cs.take n), p⟩ ::
        scan (spell (front ++ c :: cs)) (utf8Len (front ++ c :: cs.take n)) := by
  unfold pixels? at hp
  split at hp
  · next hsign =>
    split at hp
    · cases hp
    · next hprevious =>
      obtain ⟨⟨p, n'⟩, hunsigned, hpair⟩ := Option.map_eq_some_iff.mp hp
      obtain ⟨rfl, rfl⟩ := Prod.mk.inj hpair
      have hlow : c.toNat < 128 := by rcases hsign with rfl | rfl <;> decide
      have hbehind : signBehind? (front ++ [c]).reverse = some (some c) := by
        rw [List.reverse_append, List.reverse_singleton, List.singleton_append, signBehind?,
          if_pos hsign, List.head?_reverse, if_neg hprevious]
      have hstart : utf8Len (front ++ [c]) - 1 = utf8Len front := by
        rw [utf8Len_append, utf8Len_cons, utf8Size_of_lt hlow]
        rfl
      -- The sign is passed, and the scan looks back for it.
      have hnumber := scan_spell_of_number hunsigned hbehind
      rw [List.append_assoc, List.singleton_append, List.append_assoc, List.singleton_append] at hnumber
      rw [scan_spell_of_none h (found?_eq_none (.inl (unsigned?_of_sign hsign cs))), hnumber]
      exact congrArg (fun start => Stretch.length ⟨start, _, _⟩ :: _) hstart
  · next hsign =>
    split at hp
    · cases hp
    · next hglued =>
      obtain ⟨⟨p, n'⟩, hunsigned, hpair⟩ := Option.map_eq_some_iff.mp hp
      obtain ⟨rfl, rfl⟩ := Prod.mk.inj hpair
      have hbehind := (signBehind?_eq_some_none_iff front).mpr (by simpa using hglued)
      obtain ⟨k, rfl⟩ := Nat.exists_eq_succ_of_ne_zero (pos_of_unsigned? hunsigned).ne'
      have hnumber := scan_spell_of_number hunsigned hbehind
      have hpositive := negative_of_unsigned? hunsigned
      rw [List.take_succ_cons] at hnumber
      rw [hnumber]
      obtain ⟨negative, whole, fraction⟩ := p
      cases hpositive
      rfl

/-! ### Replacing what was found -/

/-- The patch that replaces a length by one in root units. -/
def Found.patch (root : Nat) (found : Found) : Patch :=
  ⟨found.start, found.stop, String.ofList (found.pixels.write root)⟩

/-- The patches for the lengths of a scan. -/
def patches (root : Nat) (stretches : List Stretch) : List Patch :=
  (lengths stretches).map (Found.patch root)

/-- Behind a sign at the end of a text nothing is a length. -/
theorem passed_nil (front : List Char) : Passed front [] := fun _ _ => rfl

theorem passed_of_last {last : Char} (hlast : last ≠ '+' ∧ last ≠ '-') (front rest : List Char) :
    Passed (front ++ [last]) rest := by
  intro sign hsign
  rw [List.reverse_append, List.reverse_singleton, List.singleton_append, signBehind?,
    if_neg (not_or.mpr hlast)] at hsign
  split at hsign <;> cases hsign

/-- A sign that starts no length has been passed. -/
theorem passed_of_pixels?_none (h : pixels? front.getLast? c cs = none) :
    Passed (front ++ [c]) cs := by
  by_cases hc : c = '+' ∨ c = '-'
  · intro sign hsign
    rw [List.reverse_append, List.reverse_singleton, List.singleton_append, signBehind?, if_pos hc,
      List.head?_reverse] at hsign
    split at hsign
    · cases hsign
    · next hprevious =>
      rw [pixels?, if_pos hc, if_neg hprevious, Option.map_eq_none_iff] at h
      exact h
  · exact passed_of_last (not_or.mp hc) front cs

/-- The end of a stretch is no sign, unless it is the end of the text. -/
theorem passed_of_protected {n : Nat} (h : protectedTail? front.getLast? c cs = some n) :
    Passed (front ++ c :: cs.take n) (cs.drop n) := by
  rcases protectedTail?_cases h with rfl | ⟨inner, last, rest, rfl, hcloses, rfl, -⟩
  · rw [List.drop_length]
    exact passed_nil _
  · have hlast : last ≠ '+' ∧ last ≠ '-' := by
      constructor <;> rintro rfl <;> cases hcloses
    have htake : front ++ c :: (inner ++ last :: rest).take (inner.length + 1) =
        (front ++ c :: inner) ++ [last] := by
      rw [List.append_cons inner, List.take_left' (by simp)]
      simp
    rw [htake]
    exact passed_of_last hlast _ _

/-- The end of a length is no sign. -/
theorem passed_of_length {p : Pixels} {n : Nat} (h : pixels? front.getLast? c cs = some (p, n)) :
    Passed (front ++ c :: cs.take n) (cs.drop n) := by
  obtain ⟨text, last, htext, hx, -⟩ := exists_end_of_pixels? h
  have hlast : last ≠ '+' ∧ last ≠ '-' := by
    constructor <;> rintro rfl <;> exact absurd hx (by decide)
  rw [htext, ← List.append_assoc]
  exact passed_of_last hlast _ _

theorem utf8Len_append_ofList (front source : List Char) :
    utf8Len (front ++ source) = utf8Len front + (String.ofList source).utf8ByteSize := by
  rw [utf8Len_append, ← String.utf8Len_toList, String.toList_ofList]

/-- Text in front of all patches is kept. -/
theorem splice?_keep (source : List Char) {out : List Char} {ps : List Patch}
    (h : Patch.splice? (utf8Len (front ++ source)) rest ps = some out) :
    Patch.splice? (utf8Len front) (source ++ rest) ps = some (source ++ out) := by
  rw [utf8Len_append_ofList] at h
  have hkept := Patch.splice?_append (String.ofList source) h
  rwa [String.toList_ofList] at hkept

/-- Text that a patch stands over is replaced. -/
theorem splice?_replace (source new : List Char) {out : List Char} {ps : List Patch}
    (h : Patch.splice? (utf8Len (front ++ source)) rest ps = some out) :
    Patch.splice? (utf8Len front) (source ++ rest)
        (⟨utf8Len front, utf8Len (front ++ source), String.ofList new⟩ :: ps) =
      some (new ++ out) := by
  rw [utf8Len_append_ofList] at h ⊢
  have hreplaced := Patch.splice?_replacing (String.ofList source) (some (String.ofList new)) h
  rw [Option.getD_some, String.toList_ofList, String.toList_ofList] at hreplaced
  exact hreplaced

/-- **Replacing the lengths that the scan of the bytes finds** converts the text. -/
theorem splice_scan (root : Nat) (previous : Option Char) (rest : List Char) :
    ∀ front, previous = front.getLast? → Passed front rest →
      Patch.splice? (utf8Len front) rest
          (patches root (scan (spell (front ++ rest)) (utf8Len front))) =
        some (converted root previous rest) := by
  fun_induction segments previous rest with
  | case1 previous =>
    intro front _ _
    have hdrop := drop_spell_append front []
    rw [spell_nil] at hdrop
    rw [scan_of_drop_nil hdrop, converted_nil]
    rfl
  | case2 previous c cs n hprotected source ih =>
    rintro front rfl hpassed
    have hlast : (front ++ source).getLast? = source.getLast? := List.getLast?_append_cons ..
    have hrest := ih (front ++ source) hlast.symm (passed_of_protected hprotected)
    have hcut : c :: cs = source ++ cs.drop n := by simp [source]
    rw [List.append_assoc, ← hcut] at hrest
    rw [scan_spell_of_protected hprotected, converted_of_protected hprotected]
    have hkept := splice?_keep source hrest
    rw [← hcut] at hkept
    exact hkept
  | case3 previous c cs hprotected p n hpixels source ih =>
    rintro front rfl hpassed
    have hlast : (front ++ source).getLast? = source.getLast? := List.getLast?_append_cons ..
    have hrest := ih (front ++ source) hlast.symm (passed_of_length hpixels)
    have hcut : c :: cs = source ++ cs.drop n := by simp [source]
    rw [List.append_assoc, ← hcut] at hrest
    rw [scan_spell_of_length hprotected hpixels, converted_of_length hprotected hpixels]
    have hreplaced := splice?_replace source (p.write root) hrest
    rw [← hcut] at hreplaced
    exact hreplaced
  | case4 previous c cs hprotected hpixels ih =>
    rintro front rfl hpassed
    have hrest := ih (front ++ [c]) (by simp) (passed_of_pixels?_none hpixels)
    rw [List.append_assoc, List.singleton_append] at hrest
    rw [scan_spell_of_none hprotected (found?_of_pixels?_none hpassed hpixels),
      converted_of_none hprotected hpixels]
    exact splice?_keep [c] hrest

end Bytes

/-! ### What the patches are like -/

theorem mem_lengths {stretches : List Stretch} {found : Found} :
    found ∈ lengths stretches ↔ .length found ∈ stretches := by
  rw [lengths, List.mem_filterMap]
  constructor
  · rintro ⟨stretch, hmem, hlength⟩
    cases stretch with
    | skipped => cases hlength
    | length found' =>
      obtain rfl := Option.some.inj hlength
      exact hmem
  · exact fun hmem => ⟨_, hmem, rfl⟩

/-- A length that was found is not empty. -/
theorem Found.start_lt_stop {text : List Char} {place : Nat} {found : Found}
    (h : found? text place = some found) : found.start < found.stop := by
  have hstop := lt_stop_of_found? h
  unfold found? at h
  split at h
  · obtain rfl := Option.some.inj h
    exact lt_of_le_of_lt (Nat.sub_le _ _) hstop
  · cases h

/-- Without the letters of the unit a scan finds nothing. -/
theorem lengths_of_mentionsPx {text : List Char} (h : mentionsPx text = false) :
    lengths (scan text 0) = [] := by
  rw [List.eq_nil_iff_forall_not_mem]
  intro found hmem
  obtain ⟨i, -, hfound, -⟩ := mem_scan_iff.mp (mem_lengths.mp hmem)
  obtain ⟨p, n, sign, hunsigned, -⟩ := exists_of_found? hfound
  rw [← List.take_append_drop i text] at h
  have hnone := mentionsPx_of_append _ h
  rw [mentionsPx_of_unsigned? hunsigned] at hnone
  cases hnone

end Length

/-- **The patches of a scan** convert a value. -/
theorem patched_scan {root : Nat} (hroot : root ≠ 0) (value : String) :
    Source.patched? { text := value }
        (Length.patches root (Length.scan (spell value.toList) 0)) =
      some (pxToRem root value) := by
  have hsplice := Length.splice_scan root none value.toList [] rfl (fun _ hsign => by cases hsign)
  rw [pxToRem_eq hroot]
  exact congrArg (Option.map String.ofList) hsplice

/-- **All and only the lengths of a value are converted.**  The bytes of the value are scanned, and
the ranges of the lengths that are found outside strings, comments and addresses are replaced.  These
ranges come in order, do not overlap, and lie between characters; every other byte stays.  Nothing is
found, and nothing changes, without the letters of the unit.  And nothing is left to convert, whatever
the root unit. -/
theorem pxToRem_eq_patched_scan {root : Nat} (hroot : root ≠ 0) (value : String) :
    let bytes := spell value.toList
    let stretches := Length.scan bytes 0
    Source.patched? { text := value } (Length.patches root stretches) = some (pxToRem root value) ∧
      (∀ found, found ∈ Length.lengths stretches ↔ ∃ place, Length.found? bytes place = some found ∧
        ∀ start stop, .skipped start stop ∈ stretches → ¬(start ≤ place ∧ place < stop)) ∧
      (Length.lengths stretches).Pairwise (fun found next => found.stop ≤ next.start) ∧
      (∀ found ∈ Length.lengths stretches, found.start < found.stop ∧ ∃ front old behind,
        value.toList = front ++ (old ++ behind) ∧ utf8Len front = found.start ∧
          utf8Len (front ++ old) = found.stop) ∧
      (Length.mentionsPx bytes = false →
        Length.lengths stretches = [] ∧ pxToRem root value = value) ∧
      ∀ root', root' ≠ 0 → pxToRem root' (pxToRem root value) = pxToRem root value := by
  intro bytes stretches
  have hpatched := patched_scan hroot value
  obtain ⟨out, hsplice, -⟩ := Option.map_eq_some_iff.mp hpatched
  obtain ⟨hpairwise, hranges⟩ := Patch.ranges_of_splice? hsplice
  have hmem (found : Length.Found) : found ∈ Length.lengths stretches ↔
      ∃ place, Length.found? bytes place = some found ∧
        ∀ start stop, .skipped start stop ∈ stretches → ¬(start ≤ place ∧ place < stop) := by
    rw [Length.mem_lengths, Length.mem_scan_iff]
    exact exists_congr fun place => and_iff_right (Nat.zero_le place)
  refine ⟨hpatched, hmem, List.pairwise_map.mp hpairwise, fun found hfound => ⟨?_, ?_⟩, fun hnone => ?_,
    fun root' _ => pxToRem_pxToRem root root' value hroot⟩
  · obtain ⟨place, hplace, -⟩ := (hmem found).mp hfound
    exact Length.Found.start_lt_stop hplace
  · obtain ⟨front, old, behind, hcut, hstart, hstop⟩ :=
      hranges _ (List.mem_map_of_mem (f := Length.Found.patch root) hfound)
    refine ⟨front, old, behind, hcut, ?_, ?_⟩
    · simpa [Length.Found.patch] using hstart.symm
    · rw [utf8Len_append]
      simp only [Length.Found.patch, Nat.zero_add] at hstart hstop
      omega
  · refine ⟨Length.lengths_of_mentionsPx hnone, if_pos (.inr ?_)⟩
    rw [← Length.mentionsPx_spell, hnone]
    rfl

/-- A value with signs that belong to a length or to a name, and with a string, a comment and an
address. -/
theorem pxToRem_eq_patched_scan_signs :
    let value := "é (+16px) --8px url(4px) '2px' /*1px*/+-0px"
    Length.lengths (Length.scan (spell value.toList) 0) =
        [⟨4, 9, ⟨false, ['1', '6'], []⟩⟩, ⟨40, 44, ⟨true, ['0'], []⟩⟩] ∧
      pxToRem 16 value = "é (1rem) --8px url(4px) '2px' /*1px*/+0" ∧
      pxToRem 10 (pxToRem 16 value) = pxToRem 16 value := by
  intro value
  obtain ⟨-, -, -, -, -, hagain⟩ := pxToRem_eq_patched_scan (show 16 ≠ 0 by decide) value
  exact ⟨by decide +kernel, by decide +kernel, hagain 10 (by decide)⟩

end LosslessCss.Value
