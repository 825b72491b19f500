import LosslessCss.Proofs.Quotients

/-!
# Division in words

A length is divided in machine words, and the result is that of the long division of numbers without
a bound (`Value.Pixels.write_canonical_and_in_words`).  What carries the argument is the remainder: it
stays below the divisor, so ten of it and a digit stay below ten divisors, which is far below
`2 ^ 64`.

Dividing in words stops where only zeros would follow.  At that point there is no remainder, so
nothing is rounded, and the places that are missing are those that trimming takes away.

## Main Statements

* `Value.wholePlaces?_eq`, `Value.exists_fractionPlaces?` : the two parts of a long division
* `Value.Decimal.exists_quotient?` : the quotient in words, up to zeros at its end
* `Value.Pixels.write_canonical_and_in_words`
-/

namespace LosslessCss.Value

theorem word?_eq {n : Nat} (h : n < 2 ^ 64) : word? n = some n := if_pos h

theorem place?_eq {n : Nat} (h : n < 10) : place? n = some n := if_pos (Nat.le_of_lt_succ h)

/-! ### Long division in parts -/

/-- **Long division goes on** with what the digits in front left over. -/
theorem longDivision_append (divisor remainder : Nat) (a b : List Nat) :
    longDivision divisor remainder (a ++ b) =
      ((longDivision divisor remainder a).1 ++
          (longDivision divisor (longDivision divisor remainder a).2 b).1,
        (longDivision divisor (longDivision divisor remainder a).2 b).2) := by
  induction a generalizing remainder with
  | nil => rfl
  | cons digit a ih =>
    rw [List.cons_append, longDivision, longDivision, ih]
    rfl

/-- Zeros have zeros as their quotient. -/
theorem longDivision_zeros (divisor n : Nat) :
    longDivision divisor 0 (List.replicate n 0) = (List.replicate n 0, 0) := by
  induction n with
  | zero => rfl
  | succ n ih =>
    rw [List.replicate_succ, longDivision]
    dsimp only
    rw [Nat.zero_mul, Nat.zero_add, Nat.zero_mod, Nat.zero_div, ih]

/-- **One more in the last place** of the part behind is carried to the part in front. -/
theorem roundUp_append (a b : List Nat) :
    roundUp (a ++ b) =
      if (roundUp b).2 then ((roundUp a).1 ++ (roundUp b).1, (roundUp a).2)
      else (a ++ (roundUp b).1, false) := by
  induction a with
  | nil => cases hcarry : (roundUp b).2 <;> simp [roundUp, ← hcarry]
  | cons digit a ih =>
    rw [List.cons_append, roundUp_cons, roundUp_cons, ih]
    cases (roundUp b).2 with
    | false => rfl
    | true =>
      simp only [if_true]
      split
      · split <;> rfl
      · rfl

section Division

variable {divisor : Nat} (hdivisor : divisor < 2 ^ 32)

include hdivisor

/-- **One step of a division** fits into words and places. -/
theorem divisionStep?_eq {remainder digit : Nat} (hremainder : remainder < divisor)
    (hdigit : digit < 10) :
    divisionStep? divisor remainder digit =
      some ((remainder * 10 + digit) / divisor, (remainder * 10 + digit) % divisor) := by
  have hplace : (remainder * 10 + digit) / divisor < 10 := Nat.div_lt_of_lt_mul (by omega)
  rw [divisionStep?, word?_eq (by omega)]
  simp only [Option.bind_eq_bind, Option.bind_some]
  rw [word?_eq (by omega)]
  simp only [Option.bind_some]
  rw [place?_eq hplace]
  rfl

/-- **The places in front of the point** are those of the long division. -/
theorem wholePlaces?_eq {remainder : Nat} (hremainder : remainder < divisor) {digits : List Nat}
    (hdigits : ∀ d ∈ digits, d < 10) :
    wholePlaces? divisor remainder digits = some (longDivision divisor remainder digits) := by
  induction digits generalizing remainder with
  | nil => rfl
  | cons digit digits ih =>
    obtain ⟨hdigit, hdigits'⟩ := List.forall_mem_cons.mp hdigits
    rw [wholePlaces?, divisionStep?_eq hdivisor hremainder hdigit]
    simp only [Option.bind_eq_bind, Option.bind_some]
    rw [ih (Nat.mod_lt _ (Nat.zero_lt_of_lt hremainder)) hdigits', longDivision]
    rfl

/-- **The places behind the point** are those of the long division, as far as they are written down.
Places that are not written down are zeros, and then nothing is left over. -/
theorem exists_fractionPlaces? {remainder : Nat} (hremainder : remainder < divisor) {places : Nat}
    {digits : List Nat} (hplaces : digits.length ≤ places) (hdigits : ∀ d ∈ digits, d < 10) :
    ∃ quotient last zeros, fractionPlaces? divisor places remainder digits = some (quotient, last) ∧
      longDivision divisor remainder (digits ++ List.replicate (places - digits.length) 0) =
        (quotient ++ List.replicate zeros 0, last) ∧ (zeros = 0 ∨ last = 0) := by
  induction places generalizing remainder digits with
  | zero =>
    obtain rfl := List.length_eq_zero_iff.mp (Nat.le_zero.mp hplaces)
    exact ⟨[], remainder, 0, rfl, rfl, .inl rfl⟩
  | succ places ih =>
    have hcut : digits ++ List.replicate (places + 1 - digits.length) 0 =
        digits.headD 0 :: (digits.tail ++ List.replicate (places - digits.tail.length) 0) := by
      cases digits with
      | nil => rfl
      | cons digit digits => simp
    rw [hcut, fractionPlaces?]
    dsimp only
    split
    · next hstop =>
      obtain ⟨rfl, hdigit, htail⟩ := hstop
      refine ⟨[], 0, places + 1, rfl, ?_, .inr rfl⟩
      rw [hdigit, htail]
      exact longDivision_zeros divisor (places + 1)
    · have hdigit : digits.headD 0 < 10 := by
        cases digits with
        | nil => decide
        | cons digit digits => exact hdigits digit List.mem_cons_self
      have hplaces' : digits.tail.length ≤ places := by
        rw [List.length_tail]
        omega
      obtain ⟨quotient, last, zeros, hrun, hlong, hzeros⟩ :=
        ih (Nat.mod_lt (remainder * 10 + digits.headD 0) (Nat.zero_lt_of_lt hremainder)) hplaces'
          (fun d hd => hdigits d (List.mem_of_mem_tail hd))
      rw [divisionStep?_eq hdivisor hremainder hdigit]
      simp only [Option.bind_eq_bind, Option.bind_some]
      rw [hrun, longDivision, hlong]
      exact ⟨_ :: quotient, last, zeros, rfl, rfl, hzeros⟩

end Division

/-- **One more in the last place** fits into places. -/
theorem carry?_eq {digits : List Nat} (hdigits : ∀ d ∈ digits, d < 10) :
    carry? digits = some (roundUp digits) := by
  induction digits with
  | nil => rfl
  | cons digit digits ih =>
    obtain ⟨hdigit, hdigits'⟩ := List.forall_mem_cons.mp hdigits
    rw [carry?, ih hdigits', roundUp_cons]
    simp only [Option.bind_eq_bind, Option.bind_some]
    generalize roundUp digits = result
    obtain ⟨rest, _ | _⟩ := result
    · rfl
    · simp only [if_true]
      split
      · rfl
      · rw [place?_eq (by omega)]
        rfl

namespace Decimal

variable {d : Decimal}

/-- One more in the last place of a decimal is one more in the last place of all its digits. -/
theorem carry?_eq (h : d.HasDigits) :
    d.carry? = some
      { whole := if (roundUp (d.whole ++ d.fraction)).2 then
            1 :: (roundUp (d.whole ++ d.fraction)).1.take d.whole.length
          else (roundUp (d.whole ++ d.fraction)).1.take d.whole.length
        fraction := (roundUp (d.whole ++ d.fraction)).1.drop d.whole.length } := by
  have hwhole := Value.carry?_eq fun n hn => h n (List.mem_append_left _ hn)
  have hfraction := Value.carry?_eq fun n hn => h n (List.mem_append_right _ hn)
  have hlength := length_roundUp d.whole
  rw [carry?, hfraction, roundUp_append]
  simp only [Option.bind_eq_bind, Option.bind_some]
  generalize roundUp d.fraction = fraction
  obtain ⟨fraction, _ | _⟩ := fraction
  · simp
  · dsimp only
    rw [hwhole]
    generalize roundUp d.whole = whole at hlength
    obtain ⟨whole, _ | _⟩ := whole
    · simp [← hlength]
    · simp [← hlength]

/-- **A quotient in words** exists, and it is the quotient up to zeros at its end. -/
theorem exists_quotient? (h : d.HasDigits) {divisor : Nat} (hpos : 0 < divisor)
    (hdivisor : divisor < 2 ^ 32) (extra : Nat) :
    ∃ quotient, d.quotient? divisor extra = some quotient ∧
      quotient.trim = (d.quotient divisor extra).trim := by
  have hwhole : ∀ n ∈ d.whole, n < 10 := fun n hn => h n (List.mem_append_left _ hn)
  have hfraction : ∀ n ∈ d.fraction, n < 10 := fun n hn => h n (List.mem_append_right _ hn)
  obtain ⟨hdigits, hremainder⟩ := longDivision_digits hpos hwhole
  have hplaces := length_longDivision divisor 0 d.whole
  obtain ⟨fraction, last, zeros, hrun, hlong, hzeros⟩ := exists_fractionPlaces? hdivisor hremainder
    (Nat.le_add_right d.fraction.length extra) hfraction
  rw [Nat.add_sub_cancel_left] at hlong
  have hdivision : d.division divisor extra =
      ((longDivision divisor 0 d.whole).1 ++ (fraction ++ List.replicate zeros 0), last) := by
    rw [division, List.append_assoc, longDivision_append, hlong]
  have hall := longDivision_digits hpos (digits_shifted h extra)
  rw [← division, hdivision] at hall
  obtain ⟨hall, hlast⟩ := hall
  rw [quotient?, wholePlaces?_eq hdivisor hpos hwhole]
  simp only [Option.bind_eq_bind, Option.bind_some]
  rw [hrun]
  simp only [Option.bind_some]
  rw [word?_eq (show last * 2 < 2 ^ 64 by omega)]
  simp only [Option.bind_some]
  rw [quotient_eq, hdivision, ← hplaces]
  generalize (longDivision divisor 0 d.whole).1 = whole at hall
  split
  · next hround =>
    obtain rfl := hzeros.resolve_right hround.2
    rw [List.replicate_zero, List.append_nil] at hall ⊢
    have hround' : divisor ≤ 2 * last := by omega
    refine ⟨_, carry?_eq hall, ?_⟩
    rw [show rounded divisor (whole ++ fraction, last) = roundUp (whole ++ fraction) from
      if_pos hround']
  · next hround =>
    have hround' : ¬ divisor ≤ 2 * last := fun hle => hround ⟨by omega, by omega⟩
    refine ⟨⟨whole, fraction⟩, rfl, ?_⟩
    rw [show rounded divisor (whole ++ (fraction ++ List.replicate zeros 0), last) =
      (whole ++ (fraction ++ List.replicate zeros 0), false) from if_neg hround']
    simp only [Bool.false_eq_true, if_false, List.take_left, List.drop_left]
    rw [trim, trim, dropTrailing_append_of_all fraction fun n hn => by
      simpa using List.eq_of_mem_replicate hn]

end Decimal

namespace Pixels

variable {p : Pixels}

/-- **A length is divided in words**, and the result is that of the long division. -/
theorem write?_eq (h : p.HasDigits) {root : Nat} (hpos : 0 < root) (hroot : root < 2 ^ 32) :
    p.write? root = some (p.write root) := by
  obtain ⟨quotient, hquotient, htrim⟩ :=
    Decimal.exists_quotient? (magnitude_digits h) hpos hroot extraPlaces
  rw [write?, hquotient, write, ← htrim]
  simp only [Option.bind_eq_bind, Option.bind_some]
  split <;> rfl

/-- **A length in root units.**  Its arithmetic fits into words of 64 bits and places of one digit.
The result is the canonical text of the exact quotient, rounded once and half up, eight places behind
those of the length, with the sign of the length and a unit; a result that is zero has neither. -/
theorem write_canonical_and_in_words (h : p.HasDigits) {root : Nat} (hpos : 0 < root)
    (hroot : root < 2 ^ 32) :
    let x := roundHalfUp (p.fraction.length + 8) (p.value / root)
    p.write? root = some (p.write root) ∧ (x = 0 → p.write root = ['0']) ∧
      (x ≠ 0 → ∃ whole fraction, Canonical x whole fraction ∧
        (∀ whole' fraction', Canonical x whole' fraction' → whole' = whole ∧ fraction' = fraction) ∧
        p.write root = (if p.negative then ['-'] else []) ++ pointed whole fraction ++
          ['r', 'e', 'm']) := by
  intro x
  have hspec := write_spec h hpos
  refine ⟨write?_eq h hpos hroot, fun hzero => ?_, fun hzero => ?_⟩
  · exact (if_pos hzero).mp hspec
  · obtain ⟨whole, fraction, hcanonical, hwrite⟩ := (if_neg hzero).mp hspec
    exact ⟨whole, fraction, hcanonical, fun _ _ hother => hother.unique hcanonical, hwrite⟩

/-- A negative length a little shorter than a root unit, whose rounding is carried through nine places
behind the point. -/
theorem write_canonical_and_in_words_carried :
    let p : Pixels := ⟨true, ['2', '9', '9', '9', '9', '9', '9', '9', '9', '9'], ['5']⟩
    p.HasDigits ∧ roundHalfUp 9 (p.value / 3000000000) = 1 ∧
      p.write? 3000000000 = some ['-', '1', 'r', 'e', 'm'] ∧
      ∃ whole fraction, Canonical 1 whole fraction ∧
        p.write 3000000000 = ['-'] ++ pointed whole fraction ++ ['r', 'e', 'm'] := by
  intro p
  have hdigits : p.HasDigits := List.all_eq_true.mp rfl
  have hround : roundHalfUp 9 (p.value / (3000000000 : ℕ)) = 1 := by decide +kernel
  obtain ⟨hwords, -, hwrite⟩ := write_canonical_and_in_words hdigits
    (show 0 < 3000000000 by decide) (show 3000000000 < 2 ^ 32 by decide)
  obtain ⟨whole, fraction, hcanonical, -, htext⟩ := hwrite (hround ▸ one_ne_zero)
  refine ⟨hdigits, hround, hwords.trans (by decide +kernel), whole, fraction, ?_, htext⟩
  exact hround ▸ hcanonical

end Pixels

end LosslessCss.Value
