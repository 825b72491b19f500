import LosslessCss.Proofs.Rewriting

/-!
# Converted lengths

Converting the pixel lengths of a value rewrites lengths and nothing else
(`Value.rewritten_pxToRem`).  On the one side, the text of a pixel length is a sign and a text like a
length, with no name in front of it (`Value.Length.exists_of_pixels?`).  On the other side, what is
written is a text like a length too, because long division yields digits: the remainder stays below
the divisor, so ten times as much stays below ten divisors.

## Main Statements

* `Value.Decimal.quotient_digits` : a quotient has digits below ten
* `Value.Pixels.isLength_write` : a length in root units looks like a length
* `Value.rewritten_pxToRem`
-/

namespace LosslessCss.Value

/-! ### Digits of a quotient -/

/-- **Long division** yields digits and a remainder below the divisor. -/
theorem longDivision_digits {divisor remainder : Nat} (hremainder : remainder < divisor)
    {digits : List Nat} (hdigits : ∀ d ∈ digits, d < 10) :
    (∀ d ∈ (longDivision divisor remainder digits).1, d < 10) ∧
      (longDivision divisor remainder digits).2 < divisor := by
  induction digits generalizing remainder with
  | nil => simpa [longDivision] using hremainder
  | cons digit digits ih =>
    obtain ⟨hdigit, hdigits'⟩ := List.forall_mem_cons.mp hdigits
    obtain ⟨hquotient, hlast⟩ := ih
      (Nat.mod_lt (remainder * 10 + digit) (Nat.zero_lt_of_lt hremainder)) hdigits'
    rw [longDivision]
    refine ⟨List.forall_mem_cons.mpr ⟨?_, hquotient⟩, hlast⟩
    exact Nat.div_lt_of_lt_mul (by omega)

theorem roundUp_cons (digit : Nat) (digits : List Nat) :
    roundUp (digit :: digits) =
      if (roundUp digits).2 then
        if digit = 9 then (0 :: (roundUp digits).1, true)
        else ((digit + 1) :: (roundUp digits).1, false)
      else (digit :: (roundUp digits).1, false) := by
  rw [roundUp]
  generalize roundUp digits = result
  obtain ⟨rest, _ | _⟩ := result <;> rfl

/-- One more in the last place leaves digits. -/
theorem roundUp_digits {digits : List Nat} (hdigits : ∀ d ∈ digits, d < 10) :
    ∀ d ∈ (roundUp digits).1, d < 10 := by
  induction digits with
  | nil => simp [roundUp]
  | cons digit digits ih =>
    obtain ⟨hdigit, hdigits'⟩ := List.forall_mem_cons.mp hdigits
    have hrest := ih hdigits'
    rw [roundUp_cons]
    split
    · split
      · exact List.forall_mem_cons.mpr ⟨by omega, hrest⟩
      · exact List.forall_mem_cons.mpr ⟨by omega, hrest⟩
    · exact List.forall_mem_cons.mpr ⟨hdigit, hrest⟩

namespace Decimal

/-- All digits of a decimal are below ten. -/
def HasDigits (d : Decimal) : Prop := ∀ n ∈ d.whole ++ d.fraction, n < 10

variable {d : Decimal}

/-- A number with more places has digits below ten. -/
theorem digits_shifted (h : d.HasDigits) (extra : Nat) :
    ∀ n ∈ d.whole ++ d.fraction ++ List.replicate extra 0, n < 10 := by
  intro n hn
  rcases List.mem_append.mp hn with hn | hn
  · exact h n hn
  · rw [List.eq_of_mem_replicate hn]
    decide

/-- The digits of a long division after rounding, and the carry. -/
def rounded (divisor : Nat) (division : List Nat × Nat) : List Nat × Bool :=
  if divisor ≤ 2 * division.2 then roundUp division.1 else (division.1, false)

/-- The long division of a quotient. -/
def division (d : Decimal) (divisor extra : Nat) : List Nat × Nat :=
  longDivision divisor 0 (d.whole ++ d.fraction ++ List.replicate extra 0)

theorem quotient_eq (d : Decimal) (divisor extra : Nat) :
    d.quotient divisor extra =
      let (digits, carry) := rounded divisor (d.division divisor extra)
      { whole := if carry then 1 :: digits.take d.whole.length else digits.take d.whole.length
        fraction := digits.drop d.whole.length } := rfl

/-- All digits of a quotient, with what was carried in front of them. -/
theorem quotient_append (d : Decimal) (divisor extra : Nat) :
    (d.quotient divisor extra).whole ++ (d.quotient divisor extra).fraction =
      (if (rounded divisor (d.division divisor extra)).2 then [1] else []) ++
        (rounded divisor (d.division divisor extra)).1 := by
  rw [quotient_eq]
  dsimp only
  split <;> simp

/-- **A quotient has digits below ten.** -/
theorem quotient_digits (h : d.HasDigits) {divisor : Nat} (hdivisor : divisor ≠ 0) (extra : Nat) :
    (d.quotient divisor extra).HasDigits := by
  have hlong : ∀ n ∈ (d.division divisor extra).1, n < 10 :=
    (longDivision_digits (Nat.pos_of_ne_zero hdivisor) (digits_shifted h extra)).1
  have hrounded : ∀ n ∈ (rounded divisor (d.division divisor extra)).1, n < 10 := by
    rw [rounded]
    split
    · exact roundUp_digits hlong
    · exact hlong
  rw [HasDigits, quotient_append]
  refine List.forall_mem_append.mpr ⟨?_, hrounded⟩
  split <;> simp

theorem trim_digits (h : d.HasDigits) : d.trim.HasDigits := by
  intro n hn
  rcases List.mem_append.mp hn with hn | hn
  · exact h n (List.mem_append_left _ (List.dropWhile_subset _ hn))
  · exact h n (List.mem_append_right _ ((dropTrailing_isPrefix _ _).subset hn))

/-- The character of a digit. -/
theorem isDigit_digitChar {n : Nat} (h : n < 10) : n.digitChar.isDigit = true := by
  interval_cases n <;> rfl

/-- **The text of a decimal** is made of digits and points, and it starts with a digit. -/
theorem write_spec (h : d.HasDigits) :
    (∀ c ∈ d.write, c.isDigit = true ∨ c = '.') ∧ ∃ c ∈ d.write.head?, c.isDigit = true := by
  have hmap {ns : List Nat} (hns : ∀ n ∈ ns, n < 10) : ∀ c ∈ ns.map Nat.digitChar,
      c.isDigit = true := by
    intro c hc
    obtain ⟨n, hn, rfl⟩ := List.mem_map.mp hc
    exact isDigit_digitChar (hns n hn)
  have hwhole := hmap fun n hn => h n (List.mem_append_left _ hn)
  have hfraction := hmap fun n hn => h n (List.mem_append_right _ hn)
  rw [write]
  constructor
  · intro c hc
    rcases List.mem_append.mp hc with hc | hc
    · left
      split at hc
      · rw [List.mem_singleton.mp hc]
        rfl
      · exact hwhole c hc
    · split at hc
      · cases hc
      · exact (List.mem_cons.mp hc).symm.imp_left (hfraction c)
  · cases hcase : d.whole with
    | nil => exact ⟨'0', rfl, rfl⟩
    | cons n ns =>
      rw [hcase] at hwhole
      exact ⟨n.digitChar, rfl, hwhole _ List.mem_cons_self⟩

end Decimal

/-! ### Texts of lengths -/

namespace Length

theorem isPlain_of_isDigit {c : Char} (h : c.isDigit = true) : isPlain c = true :=
  isPlain_of_isLead (isLead_of_isDigit h)

end Length

namespace Pixels

/-- The digits of a pixel length are digits. -/
def HasDigits (p : Pixels) : Prop := ∀ c ∈ p.whole ++ p.fraction, c.isDigit = true

variable {p : Pixels}

/-- A digit stands for a number below ten. -/
theorem digitValue_lt {c : Char} (h : c.isDigit = true) : digitValue c < 10 := by
  simp only [Char.isDigit, Bool.and_eq_true, decide_eq_true_eq] at h
  have hle : c.toNat ≤ 57 := UInt32.le_iff_toNat_le.mp h.2
  have hzero : '0'.toNat = 48 := rfl
  rw [digitValue]
  omega

theorem magnitude_digits (h : p.HasDigits) : p.magnitude.HasDigits := by
  intro n hn
  rw [magnitude, ← List.map_append] at hn
  obtain ⟨c, hc, rfl⟩ := List.mem_map.mp hn
  exact digitValue_lt (h c hc)

/-- **A length in root units looks like a length.** -/
theorem isLength_write (h : p.HasDigits) {root : Nat} (hroot : root ≠ 0) :
    Length.IsLength (p.write root) := by
  have hdigits := Decimal.trim_digits (Decimal.quotient_digits (magnitude_digits h) hroot extraPlaces)
  unfold write
  dsimp only
  generalize (p.magnitude.quotient root extraPlaces).trim = d at hdigits
  split
  · refine ⟨List.forall_mem_singleton.mpr rfl, ⟨'0', List.mem_cons_self, rfl⟩, fun c hc => ?_⟩
    rw [← Option.some.inj hc]
    rfl
  · obtain ⟨hall, c, hc, hdigit⟩ := Decimal.write_spec hdigits
    obtain ⟨text, htext⟩ := List.head?_eq_some_iff.mp hc
    have hplain : ∀ c ∈ d.write, Length.isPlain c = true := by
      intro c hc
      rcases hall c hc with hdigit | rfl
      · exact Length.isPlain_of_isDigit hdigit
      · rfl
    refine ⟨fun e he => ?_, ⟨c, by simp [htext], hdigit⟩, fun e he => ?_⟩
    · simp only [List.mem_append] at he
      rcases he with (he | he) | he
      · split at he
        · rw [List.mem_singleton.mp he]
          rfl
        · cases he
      · exact hplain e he
      · revert e
        simp only [List.forall_mem_cons]
        exact ⟨rfl, rfl, rfl, by simp⟩
    · rw [htext] at he
      split at he
      · rw [← Option.some.inj he]
        rfl
      · rw [← Option.some.inj he]
        exact Length.isLead_of_isDigit hdigit

end Pixels

namespace Length

/-- **What starts with the unit**: two letters, and no name goes on behind them. -/
theorem startsUnit_spec {cs : List Char} (h : startsUnit cs = true) :
    ∃ p x rest, cs = p :: x :: rest ∧ p.toLower = 'p' ∧ x.toLower = 'x' ∧
      rest.head?.any isNameChar = false := by
  unfold startsUnit at h
  split at h
  · next p x rest =>
    obtain ⟨hunit, hrest⟩ := Bool.and_eq_true_iff.mp h
    obtain ⟨hp, hx⟩ : p.toLower = 'p' ∧ x.toLower = 'x' := by
      simpa [Text.eqIgnoringCase] using hunit
    exact ⟨p, x, rest, rfl, hp, hx, by simpa using hrest⟩
  · cases h

/-- **A text that starts with an unsigned length** of `n` characters: a number, its unit, and no name
that goes on behind it. -/
def UnsignedText (p : Pixels) (n : Nat) (cs : List Char) : Prop :=
  p.HasDigits ∧ p.whole ++ p.fraction ≠ [] ∧ ∃ u x rest,
    cs = p.whole ++ ((if p.fraction.isEmpty then [] else '.' :: p.fraction) ++ u :: x :: rest) ∧
      n = p.whole.length + (if p.fraction.isEmpty then [] else '.' :: p.fraction).length + 2 ∧
        u.toLower = 'p' ∧ x.toLower = 'x' ∧ rest.head?.any isNameChar = false

section Number

variable {whole fraction : List Char} (hwhole : ∀ c ∈ whole, c.isDigit = true)
  (hfraction : ∀ c ∈ fraction, c.isDigit = true)

include hwhole hfraction

/-- **A number with a unit** looks like a length. -/
theorem isLength_number (hne : whole ++ fraction ≠ []) {p x : Char} (hp : isPlain p = true)
    (hx : isPlain x = true) :
    IsLength (whole ++ ((if fraction.isEmpty then [] else '.' :: fraction) ++ [p, x])) where
  plain c hc := by
    simp only [List.mem_append, List.mem_cons, List.not_mem_nil, or_false] at hc
    rcases hc with hc | hc | rfl | rfl
    · exact isPlain_of_isDigit (hwhole c hc)
    · split at hc
      · cases hc
      · rcases List.mem_cons.mp hc with rfl | hc
        · rfl
        · exact isPlain_of_isDigit (hfraction c hc)
    · exact hp
    · exact hx
  digit := by
    obtain ⟨c, cs, hcs⟩ := List.exists_cons_of_ne_nil hne
    have hc : c ∈ whole ++ fraction := by simp [hcs]
    rcases List.mem_append.mp hc with hc | hc
    · exact ⟨c, by simp [hc], hwhole c hc⟩
    · refine ⟨c, ?_, hfraction c hc⟩
      rw [if_neg (by simpa using List.ne_nil_of_mem hc)]
      simp [hc]
  lead c hc := by
    cases whole with
    | cons d whole =>
      obtain rfl := Option.some.inj hc
      exact isLead_of_isDigit (hwhole d List.mem_cons_self)
    | nil =>
      rw [if_neg (by simpa using hne)] at hc
      obtain rfl := Option.some.inj hc
      rfl

/-- The number in front of a unit. -/
theorem unsigned_spec {cs rest : List Char} {p : Pixels} {n size : Nat}
    (hcut : cs = whole ++ ((if fraction.isEmpty then [] else '.' :: fraction) ++ rest))
    (hsize : size = whole.length + if fraction.isEmpty then 0 else fraction.length + 1)
    (h : (if size ≠ 0 ∧ startsUnit (cs.drop size) then some (⟨false, whole, fraction⟩, size + 2)
      else none) = some (p, n)) :
    UnsignedText p n cs := by
  obtain ⟨⟨hpos, hunit⟩, hpair⟩ := Option.ite_none_right_eq_some.mp h
  obtain ⟨rfl, rfl⟩ := Prod.mk.inj (Option.some.inj hpair)
  have hlength : size = (whole ++ if fraction.isEmpty then [] else '.' :: fraction).length := by
    rw [hsize, List.length_append]
    split <;> rfl
  rw [hcut, ← List.append_assoc, hlength, List.drop_left] at hunit
  obtain ⟨u, x, rest, rfl, hu, hx, hrest⟩ := startsUnit_spec hunit
  refine ⟨fun c hc => (List.mem_append.mp hc).elim (hwhole c) (hfraction c), ?_, u, x, rest, hcut, ?_,
    hu, hx, hrest⟩
  · intro hnil
    obtain ⟨rfl, rfl⟩ := List.append_eq_nil_iff.mp hnil
    exact hpos hsize
  · rw [hlength, List.length_append]

end Number

/-- **The text of an unsigned length**: a number and its unit. -/
theorem unsignedText_of_unsigned? {cs : List Char} {p : Pixels} {n : Nat}
    (h : unsigned? cs = some (p, n)) : UnsignedText p n cs := by
  have hwhole : ∀ c ∈ cs.takeWhile Char.isDigit, c.isDigit = true := fun c hc =>
    List.mem_takeWhile_imp hc
  have hcs := (List.takeWhile_append_dropWhile (p := Char.isDigit) (l := cs)).symm
  unfold unsigned? at h
  dsimp only at h
  split at h
  · next rest hrest =>
    have hfraction : ∀ c ∈ rest.takeWhile Char.isDigit, c.isDigit = true := fun c hc =>
      List.mem_takeWhile_imp hc
    rw [hrest] at hcs
    by_cases hnone : rest.takeWhile Char.isDigit = []
    · have hcut : cs = cs.takeWhile Char.isDigit ++
          ((if (rest.takeWhile Char.isDigit).isEmpty then [] else
            '.' :: rest.takeWhile Char.isDigit) ++ '.' :: rest) := by
        simpa [hnone] using hcs
      exact unsigned_spec hwhole hfraction hcut rfl h
    · have hcut : cs = cs.takeWhile Char.isDigit ++
          ((if (rest.takeWhile Char.isDigit).isEmpty then [] else
            '.' :: rest.takeWhile Char.isDigit) ++ rest.dropWhile Char.isDigit) := by
        rw [if_neg (by simpa using hnone), List.cons_append, List.takeWhile_append_dropWhile]
        exact hcs
      exact unsigned_spec hwhole hfraction hcut rfl h
  · exact unsigned_spec hwhole (List.forall_mem_nil _) hcs rfl h

/-- **A pixel length without a sign** looks like a length. -/
theorem unsigned?_spec {cs : List Char} {p : Pixels} {n : Nat} (h : unsigned? cs = some (p, n)) :
    p.HasDigits ∧ ∃ old rest, cs = old ++ rest ∧ old.length = n ∧ IsLength old := by
  obtain ⟨hdigits, hne, u, x, rest, rfl, rfl, hu, hx, -⟩ := unsignedText_of_unsigned? h
  have hu' : isPlain u = true := isPlain_of_toLower (by rw [hu]; rfl)
  have hx' : isPlain x = true := isPlain_of_toLower (by rw [hx]; rfl)
  refine ⟨hdigits, _, rest, ?_, ?_, isLength_number
    (fun c hc => hdigits c (List.mem_append_left _ hc))
    (fun c hc => hdigits c (List.mem_append_right _ hc)) hne hu' hx'⟩
  · simp
  · simp [Nat.add_assoc]

/-- **The text of a pixel length**: a sign, and a text like a length. -/
theorem exists_of_pixels? {previous : Option Char} {c : Char} {cs : List Char} {p : Pixels} {n : Nat}
    (h : pixels? previous c cs = some (p, n)) :
    p.HasDigits ∧ previous.any isNameChar = false ∧ ∃ sign old, c :: cs.take n = sign ++ old ∧
      (sign = [] ∨ sign = ['+']) ∧ IsLength old := by
  unfold pixels? at h
  split at h
  · next hsign =>
    split at h
    · cases h
    · next hprevious =>
      obtain ⟨⟨p, n⟩, hunsigned, hpair⟩ := Option.map_eq_some_iff.mp h
      obtain ⟨rfl, rfl⟩ := Prod.mk.inj hpair
      obtain ⟨hdigits, old, rest, rfl, rfl, hold⟩ := unsigned?_spec hunsigned
      refine ⟨hdigits, by simpa using hprevious, ?_⟩
      rw [List.take_left]
      rcases hsign with rfl | rfl
      · exact ⟨['+'], old, rfl, .inr rfl, hold⟩
      · obtain ⟨d, hd, hdigit⟩ := hold.digit
        exact ⟨[], '-' :: old, rfl, .inl rfl, List.forall_mem_cons.mpr ⟨rfl, hold.plain⟩,
          ⟨d, List.mem_cons_of_mem _ hd, hdigit⟩, fun e he => Option.some.inj he ▸ rfl⟩
  · split at h
    · cases h
    · next hprevious =>
      obtain ⟨⟨p, n⟩, hunsigned, hpair⟩ := Option.map_eq_some_iff.mp h
      obtain ⟨rfl, rfl⟩ := Prod.mk.inj hpair
      obtain ⟨hdigits, old, rest, hcs, rfl, hold⟩ := unsigned?_spec hunsigned
      obtain ⟨d, old, rfl, -⟩ := hold.exists_lead
      obtain ⟨rfl, rfl⟩ := List.cons.inj hcs
      refine ⟨hdigits, ?_, [], c :: old, by simp, .inl rfl, hold⟩
      cases previous with
      | none => rfl
      | some b =>
        simp only [Option.any_some, Bool.or_eq_true, not_or, Bool.not_eq_true] at hprevious
        exact hprevious.1

/-- **Segments are rewritten one by one.** -/
theorem rewritten_segments {root : Nat} (hroot : root ≠ 0) (previous : Option Char)
    (cs : List Char) :
    Rewritten previous cs ((segments previous cs).flatMap (Segment.write root)) := by
  fun_induction segments previous cs with
  | case1 previous => exact .nil previous
  | case2 previous c cs n hprotected source ih =>
    have hcut : c :: cs = source ++ cs.drop n := by simp [source]
    have hlast : source.getLast?.or previous = source.getLast? := by
      rw [List.getLast?_cons]
      rfl
    rw [hcut]
    exact .append_left (hlast ▸ ih)
  | case3 previous c cs hprotected pixels n hpixels source ih =>
    obtain ⟨hdigits, hprevious, sign, old, hsource, hsign, hold⟩ := exists_of_pixels? hpixels
    have hcut : c :: cs = sign ++ (old ++ cs.drop n) := by
      rw [← List.append_assoc, ← hsource, List.cons_append, List.take_append_drop]
    have hlast : source.getLast? = old.getLast? := by
      obtain ⟨d, old, rfl, -⟩ := hold.exists_lead
      rw [show source = sign ++ d :: old from hsource, List.getLast?_append, List.getLast?_cons]
      rfl
    rw [hcut]
    refine .length hprevious hsign hold (Pixels.isLength_write hdigits hroot) ?_
    rw [← hlast]
    exact ih
  | case4 previous c cs hprotected hpixels ih => exact .keep c ih

end Length

/-- **Converting the lengths of a value** rewrites lengths and nothing else. -/
theorem rewritten_pxToRem (root : Nat) (value : String) :
    Rewritten none value.toList (pxToRem root value).toList := by
  rw [pxToRem]
  split
  · exact .refl _ _
  · next hroot =>
    rw [String.toList_ofList]
    exact Length.rewritten_segments (fun h => hroot (.inl h)) none value.toList

end LosslessCss.Value
