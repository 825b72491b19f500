import Mathlib.Data.Nat.Digits.Lemmas
import Mathlib.Data.Rat.Floor
import Mathlib.Tactic.Linarith
import Mathlib.Tactic.FieldSimp
import LosslessCss.Value.CheckedDivision
import LosslessCss.Proofs.Lengths

/-!
# Quotients as rational numbers

The digits of a quotient are those of an exact rational number that was rounded once.  What carries
the argument is the invariant of long division: the digits that were produced, times the divisor, and
the remainder make up the digits that were read.  Each place of the quotient is a place of the number,
so one more in the last place is one more half of a unit in that place, whatever is carried.

A rational number with finitely many places has one canonical text, which has no zero that could be
left out.  Trimming and writing a decimal gives the canonical text of its value.

## Main Definitions

* `number` : the number that digits stand for
* `Decimal.value`, `Pixels.value` : decimals and lengths as rational numbers
* `roundHalfUp` : a rational number to so many places
* `Canonical` : digits of a rational number without needless zeros

## Main Statements

* `Decimal.value_quotient` : a quotient is rounded once, and half up
* `Canonical.unique` : a rational number has one canonical text
* `Decimal.exists_canonical` : a trimmed decimal is written as the canonical text of its value
-/

namespace LosslessCss.Value

/-! ### The number that digits stand for -/

/-- The number that digits stand for, the first one in the highest place. -/
def number (digits : List Nat) : Nat := Nat.ofDigits 10 digits.reverse

@[simp] theorem number_nil : number [] = 0 := rfl

theorem number_append (a b : List Nat) : number (a ++ b) = number a * 10 ^ b.length + number b := by
  rw [number, List.reverse_append, Nat.ofDigits_append, List.length_reverse, number, number]
  ring

theorem number_cons (digit : Nat) (digits : List Nat) :
    number (digit :: digits) = digit * 10 ^ digits.length + number digits := by
  rw [← List.singleton_append, number_append]
  simp [number]

theorem number_concat (digits : List Nat) (digit : Nat) :
    number (digits ++ [digit]) = number digits * 10 + digit := by
  rw [number_append]
  simp [number]

@[simp] theorem number_replicate_zero (n : Nat) : number (List.replicate n 0) = 0 := by
  induction n with
  | zero => rfl
  | succ n ih => rw [List.replicate_succ, number_cons, ih, Nat.zero_mul]

/-- Digits stand for a number below the power of ten that has one place more. -/
theorem number_lt {digits : List Nat} (h : ∀ d ∈ digits, d < 10) :
    number digits < 10 ^ digits.length := by
  have hlt := Nat.ofDigits_lt_base_pow_length (by decide : 1 < 10)
    (fun d hd => h d (List.mem_reverse.mp hd) : ∀ d ∈ digits.reverse, d < 10)
  rwa [List.length_reverse] at hlt

/-- Only zeros stand for zero. -/
theorem number_eq_zero_iff {digits : List Nat} : number digits = 0 ↔ ∀ d ∈ digits, d = 0 := by
  induction digits with
  | nil => simp
  | cons digit digits ih =>
    rw [number_cons, Nat.add_eq_zero_iff, ih, List.forall_mem_cons]
    simp

/-- Zeros in front of a number do not count. -/
theorem number_dropWhile_append (digits rest : List Nat) :
    number (digits.dropWhile (· == 0) ++ rest) = number (digits ++ rest) := by
  induction digits with
  | nil => rfl
  | cons digit digits ih =>
    by_cases hzero : digit = 0
    · subst hzero
      rw [List.dropWhile_cons_of_pos (by rfl), ih, List.cons_append, number_cons, Nat.zero_mul,
        Nat.zero_add]
    · rw [List.dropWhile_cons_of_neg (by simpa using hzero)]

/-! ### Long division -/

theorem length_longDivision (divisor remainder : Nat) (digits : List Nat) :
    (longDivision divisor remainder digits).1.length = digits.length := by
  induction digits generalizing remainder with
  | nil => rfl
  | cons digit digits ih => rw [longDivision, List.length_cons, List.length_cons, ih]

/-- **The invariant of long division.**  The quotient, times the divisor, and the last remainder make
up the first remainder followed by the digits. -/
theorem number_longDivision (divisor remainder : Nat) (digits : List Nat) :
    number (longDivision divisor remainder digits).1 * divisor +
        (longDivision divisor remainder digits).2 =
      remainder * 10 ^ digits.length + number digits := by
  induction digits generalizing remainder with
  | nil => simp [longDivision]
  | cons digit digits ih =>
    set part := remainder * 10 + digit with hpart
    have hcut : part / divisor * divisor + part % divisor = part := Nat.div_add_mod' part divisor
    rw [longDivision, number_cons, length_longDivision, ← hpart]
    calc _ = part / divisor * divisor * 10 ^ digits.length +
          (number (longDivision divisor (part % divisor) digits).1 * divisor +
            (longDivision divisor (part % divisor) digits).2) := by ring
      _ = (part / divisor * divisor + part % divisor) * 10 ^ digits.length + number digits := by
        rw [ih]
        ring
      _ = _ := by
        rw [hcut, hpart, number_cons, List.length_cons, pow_succ]
        ring

theorem length_roundUp (digits : List Nat) : (roundUp digits).1.length = digits.length := by
  induction digits with
  | nil => rfl
  | cons digit digits ih =>
    rw [roundUp_cons, List.length_cons, ← ih]
    split
    · split <;> rfl
    · rfl

/-- **One more in the last place** adds one to the number, with the carry in front of it. -/
theorem number_roundUp (digits : List Nat) :
    number (roundUp digits).1 + (if (roundUp digits).2 then 10 ^ digits.length else 0) =
      number digits + 1 := by
  induction digits with
  | nil => rfl
  | cons digit digits ih =>
    rw [roundUp_cons, number_cons digit]
    split
    · next hcarry =>
      rw [if_pos hcarry] at ih
      split
      · next hnine =>
        rw [number_cons, length_roundUp, List.length_cons, pow_succ, hnine, if_pos rfl]
        omega
      · rw [number_cons, length_roundUp, Nat.succ_mul, if_neg Bool.false_ne_true]
        omega
    · next hcarry =>
      rw [if_neg hcarry] at ih
      rw [number_cons, length_roundUp, if_neg Bool.false_ne_true]
      omega

namespace Decimal

variable {d : Decimal} {divisor extra : Nat}

theorem length_rounded (divisor : Nat) (division : List Nat × Nat) :
    (rounded divisor division).1.length = division.1.length := by
  rw [rounded]
  split
  · exact length_roundUp division.1
  · rfl

theorem number_rounded (divisor : Nat) (division : List Nat × Nat) :
    number (rounded divisor division).1 +
        (if (rounded divisor division).2 then 10 ^ division.1.length else 0) =
      number division.1 + if divisor ≤ 2 * division.2 then 1 else 0 := by
  rw [rounded]
  split
  · exact number_roundUp division.1
  · rfl

theorem length_division (d : Decimal) (divisor extra : Nat) :
    (d.division divisor extra).1.length = d.whole.length + (d.fraction.length + extra) := by
  rw [division, length_longDivision]
  simp

/-- A quotient has `extra` places more than the number. -/
theorem length_quotient_fraction (d : Decimal) (divisor extra : Nat) :
    (d.quotient divisor extra).fraction.length = d.fraction.length + extra := by
  rw [quotient_eq]
  dsimp only
  rw [List.length_drop, length_rounded, length_division, Nat.add_sub_cancel_left]

/-- **The digits of a quotient** are those of the exact quotient, rounded half up. -/
theorem number_quotient (h : d.HasDigits) (hdivisor : 0 < divisor) (extra : Nat) :
    number ((d.quotient divisor extra).whole ++ (d.quotient divisor extra).fraction) =
      (2 * (number (d.whole ++ d.fraction) * 10 ^ extra) + divisor) / (2 * divisor) := by
  have hinvariant := number_longDivision divisor 0 (d.whole ++ d.fraction ++ List.replicate extra 0)
  have hremainder := (longDivision_digits hdivisor (digits_shifted h extra)).2
  have hrounded := number_rounded divisor (d.division divisor extra)
  rw [number_append (d.whole ++ d.fraction), number_replicate_zero, List.length_replicate,
    Nat.zero_mul, Nat.zero_add, Nat.add_zero] at hinvariant
  rw [← division] at hinvariant hremainder
  rw [quotient_append, number_append, length_rounded]
  have hcarry : number (if (rounded divisor (d.division divisor extra)).2 then [1] else []) *
      10 ^ (d.division divisor extra).1.length =
        if (rounded divisor (d.division divisor extra)).2 then
          10 ^ (d.division divisor extra).1.length else 0 := by
    split <;> simp [number]
  rw [hcarry, Nat.add_comm, hrounded, ← hinvariant]
  set digits := number (d.division divisor extra).1
  set remainder := (d.division divisor extra).2
  have hdouble : 2 * (digits * divisor + remainder) + divisor =
      2 * remainder + divisor + 2 * divisor * digits := by ring
  rw [hdouble, Nat.add_mul_div_left _ _ (by omega), Nat.add_comm]
  congr 1
  symm
  split
  · exact Nat.div_eq_of_lt_le (by omega) (by omega)
  · exact Nat.div_eq_of_lt (by omega)

/-- The number that a decimal stands for. -/
def value (d : Decimal) : ℚ := number (d.whole ++ d.fraction) / 10 ^ d.fraction.length

end Decimal

/-- **Rounding** to so many places: to the nearest number, and up from the middle of two. -/
def roundHalfUp (places : Nat) (x : ℚ) : ℚ := ⌊x * 10 ^ places + 1 / 2⌋₊ / 10 ^ places

namespace Decimal

variable {d : Decimal} {divisor : Nat}

/-- **A quotient is exact up to one rounding.** -/
theorem value_quotient (h : d.HasDigits) (hdivisor : 0 < divisor) (extra : Nat) :
    (d.quotient divisor extra).value =
      roundHalfUp (d.fraction.length + extra) (d.value / divisor) := by
  have hexact : d.value / divisor * 10 ^ (d.fraction.length + extra) + 1 / 2 =
      ((2 * (number (d.whole ++ d.fraction) * 10 ^ extra) + divisor : ℕ) : ℚ) /
        ((2 * divisor : ℕ) : ℚ) := by
    have hne : (divisor : ℚ) ≠ 0 := by exact_mod_cast hdivisor.ne'
    rw [value, pow_add]
    push_cast
    field_simp
  rw [value, roundHalfUp, hexact, Nat.floor_div_eq_div, number_quotient h hdivisor,
    length_quotient_fraction]

/-! ### The shortest form of a decimal -/

/-- Zeros that are not written down do not count. -/
theorem value_trim (d : Decimal) : d.trim.value = d.value := by
  have hzeros : takeTrailing (· == 0) d.fraction =
      List.replicate (takeTrailing (· == 0) d.fraction).length 0 :=
    List.eq_replicate_of_mem fun n hn => by simpa using of_mem_takeTrailing hn
  have hcut := dropTrailing_append_takeTrailing (· == 0) d.fraction
  rw [hzeros] at hcut
  generalize (takeTrailing (· == 0) d.fraction).length = n at hcut
  rw [value, value, trim, number_dropWhile_append]
  dsimp only
  generalize dropTrailing (· == 0) d.fraction = fraction at hcut
  rw [← hcut, ← List.append_assoc, number_append _ (List.replicate n 0), number_replicate_zero,
    List.length_append, List.length_replicate, pow_add]
  push_cast
  field_simp
  simp

/-- **A trimmed decimal without digits** is one of the value zero. -/
theorem isEmpty_trim_iff : d.trim.isEmpty = true ↔ d.value = 0 := by
  have hzero : d.value = 0 ↔ number (d.whole ++ d.fraction) = 0 := by
    rw [value, div_eq_zero_iff]
    simp
  rw [hzero, number_eq_zero_iff, isEmpty, Bool.and_eq_true, List.isEmpty_iff, List.isEmpty_iff,
    List.forall_mem_append, trim, List.dropWhile_eq_nil_iff, dropTrailing_eq_nil_iff]
  simp

end Decimal

/-! ### The canonical text -/

/-- A number with a point, if there is a fraction. -/
def pointed (whole fraction : List Char) : List Char :=
  whole ++ if fraction.isEmpty then [] else '.' :: fraction

/-- **The digits of a rational number**, without a zero that could be left out. -/
structure Canonical (x : ℚ) (whole fraction : List Char) : Prop where
  /-- All characters are digits. -/
  digits : ∀ c ∈ whole ++ fraction, c.isDigit = true
  /-- There is a digit in front of the point. -/
  whole_ne_nil : whole ≠ []
  /-- A zero in front is the only digit there. -/
  leading : whole.head? = some '0' → whole = ['0']
  /-- A fraction does not end in a zero. -/
  trailing : fraction.getLast? ≠ some '0'
  /-- They stand for the number. -/
  value : x = number ((whole ++ fraction).map Pixels.digitValue) / 10 ^ fraction.length

/-- A digit is known by the number that it stands for. -/
theorem digitChar_digitValue {c : Char} (h : c.isDigit = true) :
    (Pixels.digitValue c).digitChar = c := by
  have hlt := Pixels.digitValue_lt h
  simp only [Char.isDigit, Bool.and_eq_true, decide_eq_true_eq] at h
  have hle : 48 ≤ c.toNat := UInt32.le_iff_toNat_le.mp h.1
  have hc : Char.ofNat (Pixels.digitValue c + 48) = c := by
    rw [Pixels.digitValue, show '0'.toNat = 48 from rfl, Nat.sub_add_cancel hle, Char.ofNat_toNat]
  rw [← hc]
  generalize Pixels.digitValue c = n at hlt
  interval_cases n <;> rfl

theorem digitValue_digitChar {n : Nat} (h : n < 10) : Pixels.digitValue n.digitChar = n := by
  interval_cases n <;> rfl

/-- Digits that stand for the same places are the same. -/
theorem map_digitValue_inj {a b : List Char} (ha : ∀ c ∈ a, c.isDigit = true)
    (hb : ∀ c ∈ b, c.isDigit = true) (h : a.map Pixels.digitValue = b.map Pixels.digitValue) :
    a = b := by
  have hback {cs : List Char} (hcs : ∀ c ∈ cs, c.isDigit = true) :
      (cs.map Pixels.digitValue).map Nat.digitChar = cs := by
    have hid : ∀ c ∈ cs, (Nat.digitChar ∘ Pixels.digitValue) c = id c := fun c hc =>
      digitChar_digitValue (hcs c hc)
    rw [List.map_map, List.map_congr_left hid, List.map_id]
  rw [← hback ha, h, hback hb]

/-- **Digits of the same number** are the same if there are as many of them. -/
theorem number_inj {a b : List Nat} (ha : ∀ d ∈ a, d < 10) (hb : ∀ d ∈ b, d < 10)
    (hlength : a.length = b.length) (h : number a = number b) : a = b := by
  refine List.reverse_injective (Nat.ofDigits_inj_of_len_eq (by decide : 1 < 10) (by simpa) ?_ ?_ h)
  · exact fun d hd => ha d (List.mem_reverse.mp hd)
  · exact fun d hd => hb d (List.mem_reverse.mp hd)

/-- Digits are counted by their number if there is no zero in front. -/
theorem digits_number {digits : List Nat} (hdigits : ∀ d ∈ digits, d < 10)
    (hlead : digits.head? ≠ some 0) : Nat.digits 10 (number digits) = digits.reverse := by
  refine Nat.digits_ofDigits 10 (by decide) _ (fun d hd => hdigits d (List.mem_reverse.mp hd)) ?_
  intro hne hlast
  rw [List.getLast_reverse] at hlast
  exact hlead (hlast ▸ List.head?_eq_some_head _)

namespace Canonical

variable {x : ℚ} {whole fraction whole' fraction' : List Char}

theorem digits_map (h : Canonical x whole fraction) :
    (∀ d ∈ whole.map Pixels.digitValue, d < 10) ∧ ∀ d ∈ fraction.map Pixels.digitValue, d < 10 := by
  rw [← List.forall_mem_append, ← List.map_append]
  intro d hd
  obtain ⟨c, hc, rfl⟩ := List.mem_map.mp hd
  exact Pixels.digitValue_lt (h.digits c hc)

/-- A longer fraction ends in a zero. -/
theorem length_fraction_le (h : Canonical x whole fraction) (h' : Canonical x whole' fraction') :
    fraction'.length ≤ fraction.length := by
  by_contra hlt
  obtain ⟨k, hk⟩ : ∃ k, fraction'.length = fraction.length + (k + 1) :=
    ⟨fraction'.length - fraction.length - 1, by omega⟩
  obtain ⟨start, last, rfl⟩ : ∃ start last, fraction' = start ++ [last] :=
    (List.eq_nil_or_concat' fraction').resolve_left (List.ne_nil_of_length_eq_add_one hk)
  have hscale : number ((whole ++ fraction).map Pixels.digitValue) * 10 ^ (k + 1) =
      number ((whole' ++ (start ++ [last])).map Pixels.digitValue) := by
    have hvalue := h.value.symm.trans h'.value
    rw [hk, pow_add, div_eq_div_iff (by positivity) (by positivity)] at hvalue
    have hpos : (10 : ℚ) ^ fraction.length ≠ 0 := by positivity
    have hcast : (number ((whole ++ fraction).map Pixels.digitValue) : ℚ) * 10 ^ (k + 1) =
        number ((whole' ++ (start ++ [last])).map Pixels.digitValue) := by
      apply mul_right_cancel₀ hpos
      rw [← hvalue]
      ring
    exact_mod_cast hcast
  have hlast : Pixels.digitValue last = 0 := by
    have hlt := Pixels.digitValue_lt (h'.digits last (by simp))
    have hconcat : (whole' ++ (start ++ [last])).map Pixels.digitValue =
        (whole' ++ start).map Pixels.digitValue ++ [Pixels.digitValue last] := by simp
    rw [hconcat, number_concat, pow_succ, ← Nat.mul_assoc] at hscale
    omega
  refine h'.trailing ?_
  have hdigit := digitChar_digitValue (h'.digits last (by simp))
  rw [hlast] at hdigit
  rw [← hdigit]
  simp

/-- The part in front of the point has as many digits as its number needs. -/
theorem length_whole (h : Canonical x whole fraction) :
    whole.length = max 1 (Nat.digits 10 (number (whole.map Pixels.digitValue))).length := by
  by_cases hzero : whole.head? = some '0'
  · rw [h.leading hzero]
    rfl
  · have hlead : (whole.map Pixels.digitValue).head? ≠ some 0 := by
      intro hhead
      rw [List.head?_map, Option.map_eq_some_iff] at hhead
      obtain ⟨c, hc, hvalue⟩ := hhead
      have hdigit := digitChar_digitValue
        (h.digits c (List.mem_append_left _ (List.mem_of_mem_head? hc)))
      rw [hvalue] at hdigit
      exact hzero (hc.trans (congrArg some hdigit.symm))
    rw [digits_number h.digits_map.1 hlead, List.length_reverse, List.length_map]
    exact (max_eq_right (List.length_pos_iff.mpr h.whole_ne_nil)).symm

/-- **A rational number has one canonical text.** -/
theorem unique (h : Canonical x whole fraction) (h' : Canonical x whole' fraction') :
    whole = whole' ∧ fraction = fraction' := by
  have hlength : fraction.length = fraction'.length :=
    le_antisymm (length_fraction_le h' h) (length_fraction_le h h')
  have hnumber : number ((whole ++ fraction).map Pixels.digitValue) =
      number ((whole' ++ fraction').map Pixels.digitValue) := by
    have hvalue := h.value.symm.trans h'.value
    rw [hlength, div_left_inj' (by positivity)] at hvalue
    exact_mod_cast hvalue
  rw [List.map_append, List.map_append, number_append, number_append, List.length_map,
    List.length_map, hlength] at hnumber
  have hlt := number_lt h.digits_map.2
  have hlt' := number_lt h'.digits_map.2
  rw [List.length_map] at hlt hlt'
  rw [hlength] at hlt
  -- The fractions are the remainders at the last places of the whole part.
  obtain ⟨hwhole, hfraction⟩ :
      number (whole.map Pixels.digitValue) = number (whole'.map Pixels.digitValue) ∧
        number (fraction.map Pixels.digitValue) = number (fraction'.map Pixels.digitValue) := by
    have hfraction := congrArg (· % 10 ^ fraction'.length) hnumber
    simp only [Nat.mul_add_mod_self_right, Nat.mod_eq_of_lt hlt, Nat.mod_eq_of_lt hlt'] at hfraction
    rw [hfraction] at hnumber
    exact ⟨Nat.eq_of_mul_eq_mul_right (by positivity) (Nat.add_right_cancel hnumber), hfraction⟩
  refine ⟨map_digitValue_inj (fun c hc => h.digits c (List.mem_append_left _ hc))
      (fun c hc => h'.digits c (List.mem_append_left _ hc)) (number_inj h.digits_map.1
        h'.digits_map.1 ?_ hwhole),
    map_digitValue_inj (fun c hc => h.digits c (List.mem_append_right _ hc))
      (fun c hc => h'.digits c (List.mem_append_right _ hc)) (number_inj h.digits_map.2
        h'.digits_map.2 ?_ hfraction)⟩
  · rw [List.length_map, List.length_map, h.length_whole, h'.length_whole, hwhole]
  · rw [List.length_map, List.length_map, hlength]

end Canonical

namespace Decimal

variable {d : Decimal}

theorem head?_trim_whole (d : Decimal) : d.trim.whole.head? ≠ some 0 := by
  intro hhead
  have hstop := List.head?_dropWhile_not (· == 0) d.whole
  rw [show (d.whole.dropWhile (· == 0)).head? = some 0 from hhead] at hstop
  simp at hstop

theorem getLast?_trim_fraction (d : Decimal) : d.trim.fraction.getLast? ≠ some 0 := fun hlast => by
  simpa using dropTrailing_eq_self_iff.mp (dropTrailing_dropTrailing d.fraction) 0 hlast

/-- A digit that is not zero is not written as zero. -/
theorem digitChar_ne_zero {n : Nat} (h : n < 10) (hne : n ≠ 0) : n.digitChar ≠ '0' := fun hchar => by
  have hvalue := digitValue_digitChar h
  rw [hchar] at hvalue
  exact hne hvalue.symm

/-- **A trimmed decimal** is written as the canonical text of its value. -/
theorem exists_canonical (h : d.HasDigits) :
    ∃ whole fraction, Canonical d.value whole fraction ∧ d.trim.write = pointed whole fraction := by
  have hdigits := trim_digits h
  have hchars : ∀ c ∈ (d.trim.whole ++ d.trim.fraction).map Nat.digitChar, c.isDigit = true := by
    intro c hc
    obtain ⟨n, hn, rfl⟩ := List.mem_map.mp hc
    exact isDigit_digitChar (hdigits n hn)
  have hback : ((d.trim.whole ++ d.trim.fraction).map Nat.digitChar).map Pixels.digitValue =
      d.trim.whole ++ d.trim.fraction := by
    have hid : ∀ n ∈ d.trim.whole ++ d.trim.fraction, (Pixels.digitValue ∘ Nat.digitChar) n = id n :=
      fun n hn => digitValue_digitChar (hdigits n hn)
    rw [List.map_map, List.map_congr_left hid, List.map_id]
  have hvalue : d.value = number (((d.trim.whole ++ d.trim.fraction).map Nat.digitChar).map
      Pixels.digitValue) / 10 ^ (d.trim.fraction.map Nat.digitChar).length := by
    rw [hback, List.length_map, ← value_trim, value]
  have htrailing : (d.trim.fraction.map Nat.digitChar).getLast? ≠ some '0' := by
    intro hlast
    rw [List.getLast?_map, Option.map_eq_some_iff] at hlast
    obtain ⟨n, hn, hchar⟩ := hlast
    refine digitChar_ne_zero (hdigits n (List.mem_append_right _ (List.mem_of_getLast? hn))) ?_ hchar
    rintro rfl
    exact getLast?_trim_fraction d hn
  by_cases hempty : d.trim.whole = []
  · rw [hempty, List.nil_append] at hchars hvalue
    refine ⟨['0'], d.trim.fraction.map Nat.digitChar, ⟨?_, by simp, fun _ => rfl, htrailing, ?_⟩, ?_⟩
    · exact List.forall_mem_cons.mpr ⟨rfl, hchars⟩
    · rw [List.singleton_append, List.map_cons, number_cons, hvalue]
      simp [Pixels.digitValue]
    · rw [write, pointed, List.isEmpty_map, hempty]
      rfl
  · rw [List.map_append] at hchars hvalue
    refine ⟨d.trim.whole.map Nat.digitChar, d.trim.fraction.map Nat.digitChar,
      ⟨hchars, by simpa using hempty, fun hhead => ?_, htrailing, hvalue⟩, ?_⟩
    · rw [List.head?_map, Option.map_eq_some_iff] at hhead
      obtain ⟨n, hn, hchar⟩ := hhead
      refine absurd hchar
        (digitChar_ne_zero (hdigits n (List.mem_append_left _ (List.mem_of_mem_head? hn))) ?_)
      rintro rfl
      exact head?_trim_whole d hn
    · rw [write, pointed, List.isEmpty_map, if_neg (by simpa using hempty)]

end Decimal

namespace Pixels

/-- The number of pixels, without a sign. -/
def value (p : Pixels) : ℚ := number ((p.whole ++ p.fraction).map digitValue) / 10 ^ p.fraction.length

variable {p : Pixels}

theorem value_magnitude (p : Pixels) : p.magnitude.value = p.value := by
  simp [Decimal.value, magnitude, value]

/-- **A length in root units** is the canonical text of the exact quotient, rounded once. -/
theorem write_spec (h : p.HasDigits) {root : Nat} (hroot : 0 < root) :
    let x := roundHalfUp (p.fraction.length + extraPlaces) (p.value / root)
    if x = 0 then p.write root = ['0']
    else ∃ whole fraction, Canonical x whole fraction ∧
      p.write root = (if p.negative then ['-'] else []) ++ pointed whole fraction ++
        ['r', 'e', 'm'] := by
  have hdigits := magnitude_digits h
  have hvalue : (p.magnitude.quotient root extraPlaces).value =
      roundHalfUp (p.fraction.length + extraPlaces) (p.value / root) := by
    rw [Decimal.value_quotient hdigits hroot, value_magnitude, magnitude, List.length_map]
  obtain ⟨whole, fraction, hcanonical, hwrite⟩ :=
    Decimal.exists_canonical (Decimal.quotient_digits hdigits hroot.ne' extraPlaces)
  rw [hvalue] at hcanonical
  dsimp only
  rw [write, ← hvalue]
  split
  · next hzero => rw [if_pos (Decimal.isEmpty_trim_iff.mpr hzero)]
  · next hzero =>
    rw [if_neg (mt Decimal.isEmpty_trim_iff.mp hzero), hwrite]
    exact ⟨whole, fraction, hvalue ▸ hcanonical, rfl⟩

end Pixels

end LosslessCss.Value
