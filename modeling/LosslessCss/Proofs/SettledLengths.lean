import LosslessCss.Proofs.Lengths
import LosslessCss.Proofs.Stretches

/-!
# No length is left behind

A value whose pixel lengths were converted has no pixel length any more, whatever root unit is chosen
next.  Two things have to be shown.  What is written in the place of a length is none itself, for its
unit is another one and it ends where a name ends.  And no length comes into being around it.

The second is a matter of what stands next to what.  Whether a number is a length depends on the run
of name characters that starts with it and on the character in front (`unsigned?_append_of_stop`).
Inside a name nothing is converted, so behind a name character the text stays as it is up to the first
character that is part of no name (`exists_run`).  A length ends in a name character before and after
it was converted, so what follows it is read alike.

## Main Definitions

* `Value.Length.converted` : the rest of a value with its lengths converted
* `Value.Length.IsSettled` : a text in which there is nothing to convert

## Main Statements

* `Value.Length.isSettled_converted`
* `Value.pxToRem_pxToRem`
-/

namespace LosslessCss.Value

namespace Length

variable {previous : Option Char} {cs : List Char} {root : Nat}

/-! ### Where a number ends -/

/-- The characters of an unsigned length. -/
def isNumeric (c : Char) : Bool := c.isDigit || c == '.' || c.toLower == 'p' || c.toLower == 'x'

theorem isNameChar_of_isNumeric {c : Char} (h : isNumeric c = true) : isNameChar c = true := by
  refine isNameChar_of_isPlain ?_
  simp only [isNumeric, Bool.or_eq_true, beq_iff_eq] at h
  rcases h with ((h | rfl) | h) | h
  · exact isPlain_of_isDigit h
  · rfl
  · exact isPlain_of_toLower (h ▸ rfl)
  · exact isPlain_of_toLower (h ▸ rfl)

/-- **An unsigned length** is a number, with its unit, and no name goes on behind it. -/
theorem exists_of_unsigned? {p : Pixels} {n : Nat} (h : unsigned? cs = some (p, n)) :
    ∃ text last rest, cs = text ++ last :: rest ∧ n = text.length + 1 ∧
      (∀ c ∈ text, isNumeric c = true) ∧ (∃ c ∈ text.head?, c.isDigit = true ∨ c = '.') ∧
        last.toLower = 'x' ∧ rest.head?.any isNameChar = false := by
  obtain ⟨hdigits, hne, u, x, rest, rfl, rfl, hu, hx, hrest⟩ := unsignedText_of_unsigned? h
  refine ⟨p.whole ++ ((if p.fraction.isEmpty then [] else '.' :: p.fraction) ++ [u]), x, rest,
    by simp, by simp [Nat.add_assoc], ?_, ?_, hx, hrest⟩
  · have hdigit {c : Char} (hc : c ∈ p.whole ++ p.fraction) : isNumeric c = true := by
      simp [isNumeric, hdigits c hc]
    intro c hc
    simp only [List.mem_append, List.mem_singleton] at hc
    rcases hc with hc | hc | rfl
    · exact hdigit (List.mem_append_left _ hc)
    · split at hc
      · cases hc
      · rcases List.mem_cons.mp hc with rfl | hc
        · rfl
        · exact hdigit (List.mem_append_right _ hc)
    · simp [isNumeric, hu]
  · cases hwhole : p.whole with
    | cons d whole => exact ⟨d, rfl, .inl (hdigits d (by simp [hwhole]))⟩
    | nil =>
      rw [hwhole, List.nil_append] at hne
      rw [if_neg (by simpa using hne)]
      exact ⟨'.', rfl, .inr rfl⟩

/-- The characters that an unsigned length takes. -/
theorem exists_numeric_of_unsigned? {p : Pixels} {n : Nat} (h : unsigned? cs = some (p, n)) :
    ∃ number rest, cs = number ++ rest ∧ n = number.length ∧ ∀ c ∈ number, isNumeric c = true := by
  obtain ⟨text, last, rest, rfl, rfl, hnumeric, -, hx, -⟩ := exists_of_unsigned? h
  refine ⟨text ++ [last], rest, by simp, by simp, fun c hc => ?_⟩
  rcases List.mem_append.mp hc with hc | hc
  · exact hnumeric c hc
  · rw [List.mem_singleton.mp hc]
    simp [isNumeric, hx]

/-- The digits behind a point. -/
def fractionDigits : List Char → List Char
  | '.' :: rest => rest.takeWhile Char.isDigit
  | _ => []

/-- The size of a number at the start of a text. -/
def numberSize (cs : List Char) : Nat :=
  (cs.takeWhile Char.isDigit).length +
    if (fractionDigits (cs.dropWhile Char.isDigit)).isEmpty then 0
    else (fractionDigits (cs.dropWhile Char.isDigit)).length + 1

theorem unsigned?_eq (cs : List Char) :
    unsigned? cs =
      if numberSize cs ≠ 0 ∧ startsUnit (cs.drop (numberSize cs)) then
        some (⟨false, cs.takeWhile Char.isDigit, fractionDigits (cs.dropWhile Char.isDigit)⟩,
          numberSize cs + 2)
      else none := rfl

theorem numberSize_le_length (cs : List Char) : numberSize cs ≤ cs.length := by
  have hcut := congrArg List.length (List.takeWhile_append_dropWhile (p := Char.isDigit) (l := cs))
  rw [List.length_append] at hcut
  have hfraction (ds : List Char) :
      (if (fractionDigits ds).isEmpty then 0 else (fractionDigits ds).length + 1) ≤ ds.length := by
    split
    · exact Nat.zero_le _
    · next hne =>
      unfold fractionDigits at hne ⊢
      split at hne
      · exact Nat.succ_le_succ (List.takeWhile_prefix _).length_le
      · simp at hne
  rw [numberSize]
  have hle := hfraction (cs.dropWhile Char.isDigit)
  omega

section Append

variable {w t t' : List Char} (ht : ∀ c ∈ t.head?, isNumeric c = false)

include ht

theorem isDigit_of_stop : ∀ c ∈ t.head?, c.isDigit = false := fun c hc => by
  have hstop := ht c hc
  simp only [isNumeric, Bool.or_eq_false_iff] at hstop
  exact hstop.1.1.1

theorem run_append_of_stop :
    (w ++ t).takeWhile Char.isDigit = w.takeWhile Char.isDigit ∧
      (w ++ t).dropWhile Char.isDigit = w.dropWhile Char.isDigit ++ t := by
  induction w with
  | nil =>
    cases t with
    | nil => exact ⟨rfl, rfl⟩
    | cons c t => simp [isDigit_of_stop ht c rfl]
  | cons a w ih =>
    cases ha : a.isDigit <;> simp [ha, ih]

theorem fractionDigits_append_of_stop : fractionDigits (w ++ t) = fractionDigits w := by
  cases w with
  | nil =>
    cases t with
    | nil => rfl
    | cons c t =>
      have hstop := ht c rfl
      rw [List.nil_append, fractionDigits.eq_def]
      split
      · next hcut =>
        obtain ⟨rfl, -⟩ := List.cons.inj hcut
        cases hstop
      · rfl
  | cons a w =>
    by_cases ha : a = '.'
    · subst ha
      exact (run_append_of_stop ht).1
    · rw [List.cons_append, fractionDigits.eq_def, fractionDigits.eq_def]
      split <;> split <;> simp_all

theorem numberSize_append_of_stop : numberSize (w ++ t) = numberSize w := by
  rw [numberSize, (run_append_of_stop ht).1, (run_append_of_stop ht).2,
    fractionDigits_append_of_stop ht, numberSize]

/-- A text that starts with no letter of the unit does not complete it. -/
theorem startsUnit_short_append (hw : w.length < 2) : startsUnit (w ++ t) = false := by
  rw [← Bool.not_eq_true]
  intro hunit
  obtain ⟨u, x, rest, hcut, hu, hx, -⟩ := startsUnit_spec hunit
  have hfirst : ∀ c ∈ t.head?, c.toLower ≠ 'p' ∧ c.toLower ≠ 'x' := fun c hc => by
    have hstop := ht c hc
    simp only [isNumeric, Bool.or_eq_false_iff, beq_eq_false_iff_ne] at hstop
    exact ⟨hstop.1.2, hstop.2⟩
  match w, hw with
  | [], _ =>
    obtain rfl : t = u :: x :: rest := hcut
    exact (hfirst u rfl).1 hu
  | [a], _ =>
    obtain rfl : t = x :: rest := (List.cons.inj hcut).2
    exact (hfirst x rfl).2 hx

/-- **What follows an unsigned length** makes no difference, except that it may be part of a name. -/
theorem unsigned?_append_congr (ht' : ∀ c ∈ t'.head?, isNumeric c = false)
    (hname : t.head?.any isNameChar = t'.head?.any isNameChar) :
    unsigned? (w ++ t) = unsigned? (w ++ t') := by
  have hunit (w : List Char) : startsUnit (w ++ t) = startsUnit (w ++ t') := by
    by_cases hw : w.length < 2
    · rw [startsUnit_short_append ht hw, startsUnit_short_append ht' hw]
    · match w, hw with
      | u :: x :: [], _ => simp [startsUnit, hname]
      | u :: x :: c :: w, _ => rfl
      | [], h => simp at h
      | [u], h => simp at h
  rw [unsigned?_eq, unsigned?_eq, numberSize_append_of_stop ht, numberSize_append_of_stop ht',
    (run_append_of_stop ht).1, (run_append_of_stop ht').1, (run_append_of_stop ht).2,
    (run_append_of_stop ht').2, fractionDigits_append_of_stop ht, fractionDigits_append_of_stop ht',
    List.drop_append_of_le_length (numberSize_le_length w),
    List.drop_append_of_le_length (numberSize_le_length w), hunit]

end Append

section Run

variable {w t : List Char}

/-- **An unsigned length** is known by the run of name characters. -/
theorem unsigned?_append_of_stop (ht : t.head?.any isNameChar = false) :
    unsigned? (w ++ t) = unsigned? w := by
  have hnumeric : ∀ c ∈ t.head?, isNumeric c = false := by
    intro c hc
    by_contra hnumeric
    have hname := isNameChar_of_isNumeric (by simpa using hnumeric)
    rw [Option.mem_def.mp hc, Option.any_some, hname] at ht
    cases ht
  have hnil : ∀ c ∈ ([] : List Char).head?, isNumeric c = false := by simp
  simpa using unsigned?_append_congr hnumeric hnil ht

/-- **A run of name characters** that does not end like the unit is no length. -/
theorem unsigned?_eq_none (hw : ∀ c ∈ w, isNameChar c = true)
    (hlast : ∀ c ∈ w.getLast?, c.toLower ≠ 'x') (ht : t.head?.any isNameChar = false) :
    unsigned? (w ++ t) = none := by
  rw [unsigned?_append_of_stop ht, Option.eq_none_iff_forall_ne_some]
  rintro ⟨p, n⟩ h
  obtain ⟨text, last, rest, rfl, -, -, -, hx, hrest⟩ := exists_of_unsigned? h
  cases rest with
  | nil => exact hlast last (by simp) hx
  | cons c rest =>
    have hname := hw c (by simp)
    simp [hname] at hrest

end Run

/-- A number starts with a digit or a point. -/
theorem unsigned?_cons_eq_none {c : Char} (hdigit : c.isDigit = false) (hpoint : c ≠ '.')
    (cs : List Char) : unsigned? (c :: cs) = none := by
  rw [Option.eq_none_iff_forall_ne_some]
  rintro ⟨p, n⟩ h
  obtain ⟨text, last, rest, hcut, -, -, ⟨d, hd, hlead⟩, -⟩ := exists_of_unsigned? h
  cases text with
  | nil => cases hd
  | cons b text =>
    obtain ⟨rfl, -⟩ := List.cons.inj hcut
    obtain rfl := Option.some.inj hd
    simp [hdigit, hpoint] at hlead

/-! ### What is kept -/

/-- The rest of a value with its pixel lengths in root units. -/
def converted (root : Nat) (previous : Option Char) (cs : List Char) : List Char :=
  (segments previous cs).flatMap (Segment.write root)

theorem converted_nil (root : Nat) (previous : Option Char) : converted root previous [] = [] := by
  rw [converted, segments]
  rfl

/-- A stretch in which nothing is converted is kept. -/
theorem converted_of_protected {c : Char} {n : Nat} (h : protectedTail? previous c cs = some n) :
    converted root previous (c :: cs) =
      c :: (cs.take n ++ converted root (c :: cs.take n).getLast? (cs.drop n)) := by
  rw [converted, segments, h]
  rfl

/-- A pixel length is converted. -/
theorem converted_of_length {c : Char} {p : Pixels} {n : Nat}
    (h : protectedTail? previous c cs = none) (hp : pixels? previous c cs = some (p, n)) :
    converted root previous (c :: cs) =
      p.write root ++ converted root (c :: cs.take n).getLast? (cs.drop n) := by
  rw [converted, segments, h]
  dsimp only
  rw [hp]
  rfl

/-- Any other character is kept. -/
theorem converted_of_none {c : Char} (h : protectedTail? previous c cs = none)
    (hp : pixels? previous c cs = none) :
    converted root previous (c :: cs) = c :: converted root (some c) cs := by
  rw [converted, segments, h]
  dsimp only
  rw [hp]
  rfl

/-- Nothing is converted in the middle of a name. -/
theorem pixels?_of_name (h : previous.any isNameChar = true) (c : Char) (cs : List Char) :
    pixels? previous c cs = none := by
  rw [Option.eq_none_iff_forall_ne_some]
  rintro ⟨p, n⟩ hp
  rw [(exists_of_pixels? hp).2.1] at h
  cases h

/-- A name character starts no stretch in which nothing is converted, unless it is that of an
address. -/
theorem protectedTail?_of_isNameChar {c : Char} (hc : isNameChar c = true) (previous : Option Char)
    (cs : List Char) :
    protectedTail? previous c cs =
      if !previous.any isNameChar && Text.eqIgnoringCase (c :: cs.take 3) ['u', 'r', 'l', '('] then
        some (addressLength (cs.drop 3) + 3)
      else none := by
  have hquote : ¬isQuote c = true := by
    intro hquote
    simp only [isQuote, Bool.or_eq_true, beq_iff_eq] at hquote
    rcases hquote with rfl | rfl <;> cases hc
  have hslash : c ≠ '/' := by
    rintro rfl
    cases hc
  rw [protectedTail?, if_neg hquote, if_neg fun hcomment => hslash hcomment.1]

theorem protectedTail?_of_name {c : Char} (hc : isNameChar c = true)
    (h : previous.any isNameChar = true) (cs : List Char) : protectedTail? previous c cs = none := by
  rw [protectedTail?_of_isNameChar hc, h, Bool.not_true, Bool.false_and, if_neg Bool.false_ne_true]

/-- **Behind a name character** the text is kept up to and including the first character that is part
of no name. -/
theorem exists_run (root : Nat) (h : previous.any isNameChar = true) (cs : List Char) :
    ∃ w t t', cs = w ++ t ∧ converted root previous cs = w ++ t' ∧
      (∀ c ∈ w, isNameChar c = true) ∧ t'.head? = t.head? ∧ t.head?.any isNameChar = false := by
  induction cs generalizing previous with
  | nil => exact ⟨[], [], [], rfl, converted_nil root previous, by simp, rfl, rfl⟩
  | cons c cs ih =>
    have hpixels := pixels?_of_name h c cs
    cases hc : isNameChar c with
    | true =>
      have hname : (some c).any isNameChar = true := hc
      obtain ⟨w, t, t', rfl, ht', hw, hhead, hstop⟩ := ih hname
      refine ⟨c :: w, t, t', rfl, ?_, List.forall_mem_cons.mpr ⟨hc, hw⟩, hhead, hstop⟩
      rw [converted_of_none (protectedTail?_of_name hc h _) hpixels, ht']
      rfl
    | false =>
      refine ⟨[], c :: cs, converted root previous (c :: cs), rfl, rfl, by simp, ?_, by simpa using hc⟩
      cases hprotected : protectedTail? previous c cs with
      | none =>
        rw [converted_of_none hprotected hpixels]
        rfl
      | some n =>
        rw [converted_of_protected hprotected]
        rfl

/-- **Whether a number is a length** does not change behind a name character. -/
theorem unsigned?_converted (root : Nat) (h : previous.any isNameChar = true) (w cs : List Char) :
    unsigned? (w ++ converted root previous cs) = unsigned? (w ++ cs) := by
  obtain ⟨run, t, t', rfl, ht', -, hhead, hstop⟩ := exists_run root h cs
  rw [ht', ← List.append_assoc, ← List.append_assoc, unsigned?_append_of_stop hstop,
    unsigned?_append_of_stop (hhead ▸ hstop)]

/-- No name goes on behind a name that has ended. -/
theorem head?_converted (h : previous.any isNameChar = true)
    (hstop : cs.head?.any isNameChar = false) :
    (converted root previous cs).head?.any isNameChar = false := by
  obtain ⟨w, t, t', rfl, ht', hw, hhead, hstop'⟩ := exists_run root h cs
  cases w with
  | nil =>
    rw [ht', List.nil_append, hhead]
    exact hstop'
  | cons c w => simp [hw c List.mem_cons_self] at hstop

/-- **The end of a pixel length**: its unit, and no name goes on behind it. -/
theorem exists_end_of_pixels? {c : Char} {p : Pixels} {n : Nat}
    (h : pixels? previous c cs = some (p, n)) :
    ∃ text last, c :: cs.take n = text ++ [last] ∧ last.toLower = 'x' ∧
      (cs.drop n).head?.any isNameChar = false := by
  have hcut {text rest : List Char} {last : Char} (hcs : c :: cs = text ++ last :: rest)
      (hn : n = text.length) : c :: cs.take n = text ++ [last] ∧ cs.drop n = rest := by
    have htake := congrArg (List.take (n + 1)) hcs
    have hdrop := congrArg (List.drop (n + 1)) hcs
    rw [List.append_cons] at htake hdrop
    rw [List.take_succ_cons, List.take_left' (by simp [hn])] at htake
    rw [List.drop_succ_cons, List.drop_left' (by simp [hn])] at hdrop
    exact ⟨htake, hdrop⟩
  unfold pixels? at h
  split at h
  · split at h
    · cases h
    · obtain ⟨⟨p, n'⟩, hunsigned, hpair⟩ := Option.map_eq_some_iff.mp h
      obtain ⟨rfl, rfl⟩ := Prod.mk.inj hpair
      obtain ⟨text, last, rest, hcs, hn, -, -, hx, hstop⟩ := exists_of_unsigned? hunsigned
      have hcs' : c :: cs = (c :: text) ++ last :: rest := congrArg (c :: ·) hcs
      obtain ⟨htake, hdrop⟩ := hcut hcs' hn
      exact ⟨c :: text, last, htake, hx, hdrop ▸ hstop⟩
  · split at h
    · cases h
    · obtain ⟨⟨p, n'⟩, hunsigned, hpair⟩ := Option.map_eq_some_iff.mp h
      obtain ⟨rfl, rfl⟩ := Prod.mk.inj hpair
      obtain ⟨text, last, rest, hcs, rfl, -, -, hx, hstop⟩ := exists_of_unsigned? hunsigned
      obtain ⟨htake, hdrop⟩ := hcut hcs rfl
      exact ⟨text, last, htake, hx, hdrop ▸ hstop⟩

/-! ### What is written -/

theorem isLead_address : ∀ d ∈ ['u', 'r', 'l', '('], isLead d.toLower = false := by
  simp only [List.forall_mem_cons]
  exact ⟨rfl, rfl, rfl, rfl, by simp⟩

/-- What is written in the place of a length does not end like its unit. -/
theorem getLast?_write (p : Pixels) (root : Nat) : ∀ c ∈ (p.write root).getLast?, c.toLower ≠ 'x' := by
  intro c hc
  rw [Pixels.write] at hc
  split at hc
  · obtain rfl : '0' = c := Option.some.inj hc
    decide
  · rw [List.getLast?_append] at hc
    obtain rfl : 'm' = c := Option.some.inj hc
    decide

section Written

variable {p : Pixels} (hp : p.HasDigits) (hroot : root ≠ 0)

include hp hroot

theorem isNameChar_of_mem_write : ∀ c ∈ p.write root, isNameChar c = true := fun c hc =>
  isNameChar_of_isPlain ((p.isLength_write hp hroot).plain c hc)

/-- A length in root units is no length in pixels. -/
theorem unsigned?_write_append {t : List Char} (ht : t.head?.any isNameChar = false) :
    unsigned? (p.write root ++ t) = none :=
  unsigned?_eq_none (isNameChar_of_mem_write hp hroot) (getLast?_write p root) ht

end Written

/-! ### Nothing to convert -/

/-- **A text in which there is nothing to convert.** -/
def IsSettled (previous : Option Char) (cs : List Char) : Prop :=
  ∀ segment ∈ segments previous cs, ∃ source, segment = .text source

theorem isSettled_nil (previous : Option Char) : IsSettled previous [] := by
  rw [IsSettled, segments]
  exact List.forall_mem_nil _

theorem isSettled_of_protected {c : Char} {n : Nat} (h : protectedTail? previous c cs = some n)
    (hrest : IsSettled (c :: cs.take n).getLast? (cs.drop n)) : IsSettled previous (c :: cs) := by
  rw [IsSettled, segments, h]
  exact List.forall_mem_cons.mpr ⟨⟨_, rfl⟩, hrest⟩

theorem isSettled_of_none {c : Char} (h : protectedTail? previous c cs = none)
    (hp : pixels? previous c cs = none) (hrest : IsSettled (some c) cs) :
    IsSettled previous (c :: cs) := by
  rw [IsSettled, segments, h]
  dsimp only
  rw [hp]
  exact List.forall_mem_cons.mpr ⟨⟨_, rfl⟩, hrest⟩

/-- There is nothing to convert in the middle of a name. -/
theorem isSettled_run {w : List Char} (h : previous.any isNameChar = true)
    (hw : ∀ c ∈ w, isNameChar c = true) (hrest : IsSettled (w.getLast?.or previous) cs) :
    IsSettled previous (w ++ cs) := by
  induction w generalizing previous with
  | nil => exact hrest
  | cons c w ih =>
    obtain ⟨hc, hw⟩ := List.forall_mem_cons.mp hw
    refine isSettled_of_none (protectedTail?_of_name hc h _) (pixels?_of_name h c _) ?_
    refine ih (by simpa using hc) hw ?_
    rw [List.getLast?_cons] at hrest
    cases hlast : w.getLast? <;> simpa [hlast] using hrest

/-- **What is written in the place of a length** is not converted again. -/
theorem isSettled_write {p : Pixels} (hp : p.HasDigits) (hroot : root ≠ 0)
    (h : previous.any isNameChar = false) {t : List Char} (hstop : t.head?.any isNameChar = false)
    (ht : IsSettled (p.write root).getLast? t) : IsSettled previous (p.write root ++ t) := by
  have hnone := unsigned?_write_append hp hroot hstop
  have hname := isNameChar_of_mem_write hp hroot
  have hlast := getLast?_write p root
  obtain ⟨a, w, hw, hlead⟩ := (p.isLength_write hp hroot).exists_lead
  rw [hw] at hnone hname hlast ht ⊢
  obtain ⟨ha, hnames⟩ := List.forall_mem_cons.mp hname
  have hprotected : protectedTail? previous a (w ++ t) = none := by
    have hurl : Text.eqIgnoringCase (a :: (w ++ t).take 3) ['u', 'r', 'l', '('] = false := by
      exact eqIgnoringCase_of_isLead List.mem_cons_self hlead isLead_address
    rw [protectedTail?_of_isNameChar ha, hurl, Bool.and_false, if_neg Bool.false_ne_true]
  have hpixels : pixels? previous a (w ++ t) = none := by
    have hbehind : unsigned? (w ++ t) = none := by
      refine unsigned?_eq_none hnames (fun c hc => hlast c ?_) hstop
      rw [List.getLast?_cons, Option.mem_def.mp hc]
      rfl
    rw [List.cons_append] at hnone
    rw [pixels?, h, hnone, hbehind]
    simp
  refine isSettled_of_none hprotected hpixels (isSettled_run (by simpa using ha) hnames ?_)
  rw [List.getLast?_cons] at ht
  cases hcase : w.getLast? <;> simpa [hcase] using ht

/-! ### Nothing is left -/

/-- A character that starts a stretch in which nothing is converted starts no number. -/
theorem unsigned?_of_protected {c : Char} {n : Nat} (h : protectedTail? previous c cs = some n)
    (ds : List Char) : unsigned? (c :: ds) = none := by
  have hlead : isLead c = false := by
    unfold protectedTail? at h
    split at h
    · next hquote =>
      simp only [isQuote, Bool.or_eq_true, beq_iff_eq] at hquote
      rcases hquote with rfl | rfl <;> rfl
    · split at h
      · next hcomment =>
        rw [hcomment.1]
        rfl
      · split at h
        · next haddress =>
          by_contra hlead
          have hurl := eqIgnoringCase_of_isLead (List.mem_cons_self (a := c) (l := cs.take 3))
            (by simpa using hlead) isLead_address
          rw [hurl, Bool.and_false] at haddress
          cases haddress
        · cases h
  simp only [isLead, Bool.or_eq_false_iff, beq_eq_false_iff_ne] at hlead
  exact unsigned?_cons_eq_none hlead.1.1 hlead.1.2 ds

/-- A number that is no length does not become one. -/
theorem unsigned?_cons_converted {c : Char} (h : unsigned? (c :: cs) = none) :
    unsigned? (c :: converted root (some c) cs) = none := by
  cases hc : isNameChar c with
  | true =>
    have hname : (some c).any isNameChar = true := hc
    exact (unsigned?_converted root hname [c] cs).trans h
  | false =>
    refine unsigned?_cons_eq_none ?_ ?_ _
    · by_contra hdigit
      have hname := isNameChar_of_isPlain (isPlain_of_isDigit (by simpa using hdigit))
      rw [hc] at hname
      cases hname
    · rintro rfl
      cases hc

/-- Behind a plus sign no number becomes a length. -/
theorem unsigned?_converted_plus (hroot : root ≠ 0) (h : unsigned? cs = none) :
    unsigned? (converted root (some '+') cs) = none := by
  cases cs with
  | nil => rwa [converted_nil]
  | cons c cs =>
    cases hprotected : protectedTail? (some '+') c cs with
    | some n =>
      rw [converted_of_protected hprotected]
      exact unsigned?_of_protected hprotected _
    | none =>
      cases hpixels : pixels? (some '+') c cs with
      | some found =>
        obtain ⟨p, n⟩ := found
        obtain ⟨text, last, hsource, hx, hstop⟩ := exists_end_of_pixels? hpixels
        rw [converted_of_length hprotected hpixels]
        refine unsigned?_write_append (exists_of_pixels? hpixels).1 hroot (head?_converted ?_ hstop)
        rw [hsource, List.getLast?_concat]
        exact isNameChar_of_isPlain (isPlain_of_toLower (by rw [hx]; rfl))
      | none =>
        rw [converted_of_none hprotected hpixels]
        exact unsigned?_cons_converted h

/-- A character that starts no length does not come to start one. -/
theorem pixels?_converted (hroot : root ≠ 0) {c : Char} (h : pixels? previous c cs = none) :
    pixels? previous c (converted root (some c) cs) = none := by
  unfold pixels? at h ⊢
  split at h
  · next hsign =>
    rw [if_pos hsign]
    split at h
    · next hprevious => rw [if_pos hprevious]
    · next hprevious =>
      rw [if_neg hprevious, Option.map_eq_none_iff]
      rw [Option.map_eq_none_iff] at h
      rcases hsign with rfl | rfl
      · exact unsigned?_converted_plus hroot h
      · have hname : (some '-').any isNameChar = true := rfl
        exact (unsigned?_converted root hname [] cs).trans h
  · next hsign =>
    rw [if_neg hsign]
    split at h
    · next hprevious => rw [if_pos hprevious]
    · next hprevious =>
      rw [if_neg hprevious, Option.map_eq_none_iff]
      rw [Option.map_eq_none_iff] at h
      exact unsigned?_cons_converted h

/-- Behind its first letter the name of an address is kept. -/
theorem take_three_converted {c : Char}
    (h : Text.eqIgnoringCase (c :: (converted root (some c) cs).take 3) ['u', 'r', 'l', '('] = true) :
    (converted root (some c) cs).take 3 = cs.take 3 := by
  have hlower {d e : Char} (hd : d.toLower = e) (he : isPlain e = true) : isNameChar d = true :=
    isNameChar_of_isPlain (isPlain_of_toLower (by rwa [hd]))
  simp only [Text.eqIgnoringCase, List.map_cons, beq_iff_eq, List.cons.injEq] at h
  obtain ⟨hc, hrest⟩ := h
  have hc : c.toLower = 'u' := hc
  have hname : (some c).any isNameChar = true := hlower hc rfl
  obtain ⟨w, t, t', rfl, ht', -, hhead, hstop⟩ := exists_run root hname cs
  rw [ht'] at hrest ⊢
  rw [← hhead] at hstop
  rcases w with _ | ⟨a, _ | ⟨b, w⟩⟩
  · cases t' with
    | nil => simp at hrest
    | cons d t' =>
      have hd : d.toLower = 'r' := (List.cons.inj hrest).1
      simp [hlower hd rfl] at hstop
  · cases t' with
    | nil => simp at hrest
    | cons d t' =>
      have hd : d.toLower = 'l' := (List.cons.inj (List.cons.inj hrest).2).1
      simp [hlower hd rfl] at hstop
  · have hfirst : (w ++ t').take 1 = (w ++ t).take 1 := by
      rw [List.take_one, List.take_one, List.head?_append, List.head?_append, hhead]
    exact congrArg (a :: b :: ·) hfirst

/-- A character that starts no stretch in which nothing is converted does not come to start one. -/
theorem protectedTail?_converted (hroot : root ≠ 0) {c : Char}
    (h : protectedTail? previous c cs = none) :
    protectedTail? previous c (converted root (some c) cs) = none := by
  have hstar : (converted root (some c) cs).head? = some '*' ↔ cs.head? = some '*' :=
    (rewritten_segments hroot (some c) cs).head?_eq_iff rfl (by decide)
  unfold protectedTail? at h ⊢
  simp only [hstar]
  split at h
  · cases h
  · next hquote =>
    rw [if_neg hquote]
    split at h
    · cases h
    · next hcomment =>
      rw [if_neg hcomment]
      split at h
      · cases h
      · next haddress =>
        refine if_neg fun haddress' => haddress ?_
        obtain ⟨hprevious, hurl⟩ := Bool.and_eq_true_iff.mp haddress'
        rw [take_three_converted hurl] at hurl
        rw [hprevious, hurl]
        rfl

/-- Two characters that are the same to what stands behind them. -/
def Alike (previous previous' : Option Char) : Prop :=
  previous' = previous ∨ previous.any isNameChar = true ∧ previous'.any isNameChar = true

theorem Alike.protectedTail?_eq {previous' : Option Char} (h : Alike previous previous') (c : Char)
    (cs : List Char) : protectedTail? previous' c cs = protectedTail? previous c cs := by
  rcases h with rfl | ⟨h, h'⟩
  · rfl
  · rw [protectedTail?, protectedTail?, h, h']

theorem Alike.pixels?_eq {previous' : Option Char} (h : Alike previous previous') (c : Char)
    (cs : List Char) : pixels? previous' c cs = pixels? previous c cs := by
  rcases h with rfl | ⟨h, h'⟩
  · rfl
  · rw [pixels?_of_name h, pixels?_of_name h']

/-- **A value whose lengths were converted** has nothing to convert. -/
theorem isSettled_converted (hroot : root ≠ 0) (previous : Option Char) (cs : List Char) :
    ∀ previous', Alike previous previous' → IsSettled previous' (converted root previous cs) := by
  fun_induction segments previous cs with
  | case1 previous =>
    intro previous' _
    rw [converted_nil]
    exact isSettled_nil _
  | case2 previous c cs n hprotected source ih =>
    intro previous' h
    rw [converted_of_protected hprotected]
    rw [← h.protectedTail?_eq] at hprotected
    rcases protectedTail?_cases hprotected with rfl | ⟨inner, last, rest, rfl, -, rfl, hclosed⟩
    · rw [List.take_length, List.drop_length, converted_nil, List.append_nil]
      refine isSettled_of_protected hprotected ?_
      rw [List.drop_length]
      exact isSettled_nil _
    · have htake (more : List Char) : (inner ++ last :: more).take (inner.length + 1) =
          inner ++ [last] := by
        rw [List.append_cons, List.take_left' (by simp)]
      have hdrop (more : List Char) : (inner ++ last :: more).drop (inner.length + 1) = more := by
        rw [List.append_cons, List.drop_left' (by simp)]
      simp only [source, htake, hdrop] at ih
      rw [htake, hdrop, List.append_assoc, List.singleton_append]
      refine isSettled_of_protected (hclosed _) ?_
      rw [htake, hdrop]
      exact ih _ (.inl rfl)
  | case3 previous c cs hprotected p n hpixels source ih =>
    intro previous' h
    obtain ⟨text, last, hsource, hx, hstop⟩ := exists_end_of_pixels? hpixels
    obtain ⟨hdigits, hprevious, -⟩ := exists_of_pixels? hpixels
    have hlast : (c :: cs.take n).getLast?.any isNameChar = true := by
      rw [hsource, List.getLast?_concat]
      exact isNameChar_of_isPlain (isPlain_of_toLower (by rw [hx]; rfl))
    rw [converted_of_length hprotected hpixels]
    refine isSettled_write hdigits hroot ?_ (head?_converted hlast hstop) (ih _ (.inr ⟨hlast, ?_⟩))
    · rcases h with rfl | ⟨hname, -⟩
      · exact hprevious
      · rw [hprevious] at hname
        cases hname
    · have hne := (p.isLength_write hdigits hroot).ne_nil
      have hd := List.getLast?_eq_some_getLast hne
      rw [hd]
      exact isNameChar_of_mem_write hdigits hroot _ (List.mem_of_getLast? hd)
  | case4 previous c cs hprotected hpixels ih =>
    intro previous' h
    rw [converted_of_none hprotected hpixels]
    refine isSettled_of_none ?_ ?_ (ih _ (.inl rfl))
    · rw [h.protectedTail?_eq]
      exact protectedTail?_converted hroot hprotected
    · rw [h.pixels?_eq]
      exact pixels?_converted hroot hpixels

/-- A text in which there is nothing to convert stays as it is. -/
theorem converted_of_isSettled (h : IsSettled previous cs) (root : Nat) :
    converted root previous cs = cs := by
  have hsource : (segments previous cs).flatMap Segment.source = cs := by
    clear h
    fun_induction segments previous cs with
    | case1 => rfl
    | case2 previous c cs n _ source ih => simp [Segment.source, source, ih]
    | case3 previous c cs _ p n _ source ih => simp [Segment.source, source, ih]
    | case4 previous c cs _ _ ih => simp [Segment.source, ih]
  conv_rhs => rw [← hsource]
  refine List.flatMap_congr fun segment hsegment => ?_
  obtain ⟨source, rfl⟩ := h segment hsegment
  rfl

/-! ### Texts without the unit -/

theorem mentionsPx_cons (c : Char) (cs : List Char) :
    mentionsPx (c :: cs) =
      (c.toLower == 'p' && cs.head?.any (fun d => d.toLower == 'x') || mentionsPx cs) := by
  cases cs with
  | nil => simp [mentionsPx]
  | cons d cs =>
    have hp : 'p'.toLower = 'p' := rfl
    have hx : 'x'.toLower = 'x' := rfl
    simp [mentionsPx, Text.eqIgnoringCase, hp, hx]

theorem mentionsPx_append_left (front : List Char) (h : mentionsPx cs = true) :
    mentionsPx (front ++ cs) = true := by
  induction front with
  | nil => exact h
  | cons c front ih => rw [List.cons_append, mentionsPx_cons, ih, Bool.or_true]

theorem mentionsPx_of_append (front : List Char) (h : mentionsPx (front ++ cs) = false) :
    mentionsPx cs = false := by
  by_contra hmentions
  rw [mentionsPx_append_left front (by simpa using hmentions)] at h
  cases h

/-- The letters of the unit occur in the bytes if they occur in the text. -/
theorem mentionsPx_spell (cs : List Char) : mentionsPx (Text.spell cs) = mentionsPx cs := by
  have hother {d : Char} (hd : 128 ≤ d.toNat) (letter : Char) (hletter : letter.toNat < 128) :
      (d.toLower == letter) = false := by
    rw [toLower_of_high hd]
    exact beq_false_of_ne (Token.ne_of_high hd hletter)
  have hpass {ds : List Char} (hds : ∀ d ∈ ds, 128 ≤ d.toNat) (cs : List Char) :
      mentionsPx (ds ++ cs) = mentionsPx cs := by
    induction ds with
    | nil => rfl
    | cons d ds ih =>
      obtain ⟨hd, hds⟩ := List.forall_mem_cons.mp hds
      rw [List.cons_append, mentionsPx_cons, hother hd _ (by decide), ih hds]
      rfl
  induction cs with
  | nil => rfl
  | cons c cs ih =>
    obtain ⟨first, others, hspelled, hspell⟩ := Text.exists_spelled c
    rw [hspell, mentionsPx_cons, mentionsPx_cons, hpass hspelled.high, ih]
    rcases hspelled.start with ⟨rfl, rfl⟩ | ⟨hc, hfirst⟩
    · rw [List.nil_append, Text.any_head?_spell fun d hd => hother hd 'x' (by decide)]
    · rw [hother hc _ (by decide), hother hfirst _ (by decide)]
      rfl

/-- A length has the letters of the unit. -/
theorem mentionsPx_of_unsigned? {p : Pixels} {n : Nat} (h : unsigned? cs = some (p, n)) :
    mentionsPx cs = true := by
  obtain ⟨-, -, u, x, rest, rfl, -, hu, hx, -⟩ := unsignedText_of_unsigned? h
  rw [← List.append_assoc]
  refine mentionsPx_append_left _ ?_
  simp [mentionsPx, Text.eqIgnoringCase, hu, hx]

theorem mentionsPx_of_pixels? {c : Char} {p : Pixels} {n : Nat}
    (h : pixels? previous c cs = some (p, n)) : mentionsPx (c :: cs) = true := by
  unfold pixels? at h
  split at h <;> split at h
  · cases h
  · obtain ⟨_, hunsigned, -⟩ := Option.map_eq_some_iff.mp h
    exact mentionsPx_append_left [c] (mentionsPx_of_unsigned? hunsigned)
  · cases h
  · obtain ⟨_, hunsigned, -⟩ := Option.map_eq_some_iff.mp h
    exact mentionsPx_of_unsigned? hunsigned

/-- **Without the letters of the unit** there is nothing to convert. -/
theorem isSettled_of_mentionsPx (previous : Option Char) (h : mentionsPx cs = false) :
    IsSettled previous cs := by
  fun_induction segments previous cs with
  | case1 previous => exact isSettled_nil previous
  | case2 previous c cs n hprotected source ih =>
    refine isSettled_of_protected hprotected (ih ?_)
    rw [← List.take_append_drop n cs, ← List.cons_append] at h
    exact mentionsPx_of_append _ h
  | case3 previous c cs hprotected p n hpixels source ih =>
    rw [mentionsPx_of_pixels? hpixels] at h
    cases h
  | case4 previous c cs hprotected hpixels ih =>
    exact isSettled_of_none hprotected hpixels (ih (mentionsPx_of_append [c] h))

end Length

/-- **A value without the letters of the unit** is left alone, and converting it would give the same. -/
theorem pxToRem_eq {root : Nat} (hroot : root ≠ 0) (value : String) :
    pxToRem root value = String.ofList (Length.converted root none value.toList) := by
  rw [pxToRem]
  split
  · next hcond =>
    have hsettled := Length.isSettled_of_mentionsPx none
      (by simpa using hcond.resolve_left hroot : Length.mentionsPx value.toList = false)
    rw [Length.converted_of_isSettled hsettled, String.ofList_toList]
  · rfl

/-- **Converting the lengths of a value again** changes nothing, whatever the root unit. -/
theorem pxToRem_pxToRem (root root' : Nat) (value : String) (hroot : root ≠ 0) :
    pxToRem root' (pxToRem root value) = pxToRem root value := by
  have hsettled := Length.isSettled_converted hroot none value.toList none (.inl rfl)
  rw [pxToRem_eq hroot, pxToRem, String.toList_ofList]
  split
  · rfl
  · exact congrArg String.ofList (Length.converted_of_isSettled hsettled root')

end LosslessCss.Value
