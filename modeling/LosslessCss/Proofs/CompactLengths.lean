import LosslessCss.Proofs.CompactTexts
import LosslessCss.Proofs.SettledLengths

/-!
# No length comes into being where a value is compacted

A value in which there is nothing to convert can have a length once it is compacted: the scan for
lengths knows no escapes, takes some white space for a part of a name, and takes a quote or a
parenthesis in a comment for one of an address.  Where none of this matters (`inStep`), the scan and
compaction take the same steps: a gap is passed by both, strings are strings for both, and an address
ends with the same parenthesis before and after it was compacted.  So a compact form has no length if
the value has none (`InStep.isSettled`).

## Main Definitions

* `Value.Length.inStep` : values on which the scan and compaction agree
* `Value.Length.InStep` : a value and its compact form, step by step
* `Value.keepsLengths` : values that get no length where they are compacted

## Main Statements

* `Value.Length.InStep.exists_address`
* `Value.Length.InStep.isSettled`
* `Value.pxToRem_compactValue`
-/

namespace LosslessCss

open Value.Compact (IsGap IsUnit Quotes pieces valueTightness)

namespace Value

namespace Length

/-! ### Values on which the scan and compaction agree -/

/-- A character that is part of no name and no sign. -/
def isCalm (c : Char) : Bool := !isNameChar c && c != '+'

/-- A gap is apart from names, and has nothing that matters in an address. -/
def gapKeeps (gap : List Char) : Bool :=
  gap.head?.all isCalm && gap.getLast?.all isCalm &&
    gap.all fun c => !isQuote c && c != ')' && c != '\\'

/-- What is escaped starts neither a string nor a comment. -/
def unitKeeps : List Char → Bool
  | '\\' :: c :: _ => !isQuote c && c != '/'
  | _ => true

/-- **The scan for lengths and compaction agree** on the gaps and the units of a value. -/
def inStep (cs : List Char) : Bool :=
  ((pieces [] cs).1.all fun p => gapKeeps p.gap && unitKeeps p.unit) &&
    (pieces [] cs).2.head?.all isCalm

/-- **A value and its compact form**, on which the scan for lengths and compaction agree. -/
inductive InStep : Option Char → List Char → List Char → Prop
  | last {previous : Option Char} {gap : List Char} (hgap : IsGap [] gap)
      (hhead : ∀ c ∈ gap.head?, isCalm c = true) : InStep previous gap []
  | cons {previous : Option Char} {gap space unit cs ds : List Char}
      (hgap : IsGap (unit ++ cs) gap) (hkeeps : gapKeeps gap = true)
      (hspace : space =
        if gap != [] && valueTightness.spaces previous unit.head? then [' '] else [])
      (hunit : IsUnit cs unit) (hunit' : IsUnit ds unit) (hunitKeeps : unitKeeps unit = true)
      (h : InStep unit.getLast? cs ds) : InStep previous (gap ++ (unit ++ cs)) (space ++ (unit ++ ds))

variable {previous : Option Char} {gap space unit behind cs ds : List Char} {c : Char}

theorem isCalm_iff : isCalm c = true ↔ isNameChar c = false ∧ c ≠ '+' := by simp [isCalm]

theorem gapKeeps_iff : gapKeeps gap = true ↔ (∀ c ∈ gap.head?, isCalm c = true) ∧
    (∀ c ∈ gap.getLast?, isCalm c = true) ∧ ∀ c ∈ gap, isQuote c = false ∧ c ≠ ')' ∧ c ≠ '\\' := by
  simp [gapKeeps, Option.all_eq_true, and_assoc]

/-- What is written for a gap keeps apart what it kept apart. -/
theorem gapKeeps_space (hspace : space =
    if gap != [] && valueTightness.spaces previous unit.head? then [' '] else []) :
    gapKeeps space = true := by
  rw [hspace]
  split <;> rfl

/-- **A gap is written as a space**, unless punctuation makes it superfluous. -/
theorem space_cases (hspace : space =
    if gap != [] && valueTightness.spaces previous unit.head? then [' '] else []) (hgap : gap ≠ []) :
    space = [' '] ∨ space = [] ∧ ((∀ c ∈ previous, isCalm c = true) ∨
      ∃ c ∈ unit.head?, c = ',' ∨ c = ')') := by
  rw [hspace]
  split
  · exact .inl rfl
  · next hnone =>
    refine .inr ⟨rfl, ?_⟩
    have hspaces : valueTightness.spaces previous unit.head? = false := by simpa [hgap] using hnone
    rw [Compact.Tightness.spaces, Bool.and_eq_false_iff] at hspaces
    refine hspaces.imp (fun hbehind c hc => ?_) fun hbefore => ?_
    · rw [Option.mem_def.mp hc] at hbehind
      have hmem : c = ',' ∨ c = '(' :=
        or_iff_not_imp_left.mpr (by simpa [valueTightness] using hbehind)
      rcases hmem with rfl | rfl <;> rfl
    · cases hhead : unit.head? with
      | none => simp [hhead] at hbefore
      | some c =>
        rw [hhead] at hbefore
        exact ⟨c, rfl, or_iff_not_imp_left.mpr (by simpa [valueTightness] using hbefore)⟩

/-! ### What a scan sees of a gap -/

theorem unsigned?_of_not_name (hc : isNameChar c = false) (cs : List Char) :
    unsigned? (c :: cs) = none := by
  refine unsigned?_cons_eq_none ?_ ?_ cs
  · by_contra hdigit
    rw [isNameChar_of_isPlain (isPlain_of_isDigit (by simpa using hdigit))] at hc
    cases hc
  · rintro rfl
    cases hc

/-- A text in which there is nothing to convert, from a character that is not protected. -/
theorem IsSettled.of_none (h : IsSettled previous (c :: cs))
    (hprotected : protectedTail? previous c cs = none) :
    pixels? previous c cs = none ∧ IsSettled (some c) cs := by
  rw [IsSettled, segments, hprotected] at h
  dsimp only at h
  cases hpixels : pixels? previous c cs with
  | none =>
    rw [hpixels] at h
    exact ⟨rfl, (List.forall_mem_cons.mp h).2⟩
  | some found =>
    rw [hpixels] at h
    obtain ⟨source, hsource⟩ := (List.forall_mem_cons.mp h).1
    cases hsource

/-- The same from a character that starts a protected stretch. -/
theorem IsSettled.of_protected {n : Nat} (h : IsSettled previous (c :: cs))
    (hprotected : protectedTail? previous c cs = some n) :
    IsSettled (c :: cs.take n).getLast? (cs.drop n) := by
  rw [IsSettled, segments, hprotected] at h
  exact (List.forall_mem_cons.mp h).2

/-- White space is neither protected nor converted. -/
theorem protectedTail?_of_isWhiteSpace (hc : Text.isWhiteSpace c = true) (previous : Option Char)
    (cs : List Char) : protectedTail? previous c cs = none := by
  have hquote : ¬isQuote c = true := by
    intro hquote
    simp only [isQuote, Bool.or_eq_true, beq_iff_eq] at hquote
    rcases hquote with rfl | rfl <;> cases hc
  have hslash : c ≠ '/' := by
    rintro rfl
    cases hc
  have hurl : Text.eqIgnoringCase (c :: cs.take 3) ['u', 'r', 'l', '('] = false := by
    rw [Text.eqIgnoringCase, beq_eq_false_iff_ne]
    intro hname
    have hlower : c.toLower = 'u' := (List.cons.inj hname).1
    rw [Text.toLower_of_isWhiteSpace hc] at hlower
    rw [hlower] at hc
    cases hc
  rw [protectedTail?, if_neg hquote, if_neg fun hcomment => hslash hcomment.1, hurl, Bool.and_false,
    if_neg Bool.false_ne_true]

/-- **Behind a gap** there is nothing to convert if there is nothing in front of it. -/
theorem isSettled_of_isGap (hgap : IsGap behind gap) (hne : behind ≠ [])
    (h : IsSettled previous (gap ++ behind)) : IsSettled (gap.getLast?.or previous) behind := by
  induction hgap generalizing previous with
  | nil => exact h
  | @white c cs hwhite _ ih =>
    have hrest := ih ((h.of_none (protectedTail?_of_isWhiteSpace hwhite _ _)).2)
    rw [List.getLast?_cons]
    cases hlast : cs.getLast? <;> simpa [hlast] using hrest
  | @comment inner cs hinner _ ih =>
    have hprotected : protectedTail? previous '/' ('*' :: (inner ++ '*' :: '/' :: cs) ++ behind) =
        some (inner.length + 3) := by
      rw [protectedTail?, if_neg (by decide), if_pos ⟨rfl, rfl⟩, List.cons_append, List.tail_cons,
        commentLength, List.append_assoc, List.cons_append, List.cons_append,
        Token.commentTail_append_of_not_infix hinner]
      rfl
    have hopen : IsSettled previous ('/' :: ('*' :: (inner ++ '*' :: '/' :: cs) ++ behind)) := h
    have hrest := hopen.of_protected hprotected
    have hcut : '*' :: (inner ++ '*' :: '/' :: cs) ++ behind =
        '*' :: (inner ++ ['*', '/']) ++ (cs ++ behind) := by simp
    rw [hcut, List.take_left' (by simp), List.drop_left' (by simp)] at hrest
    have hlast : ('/' :: '*' :: (inner ++ ['*', '/'])).getLast? = some '/' := by
      simp [List.getLast?_cons, List.getLast?_append]
    rw [hlast] at hrest
    have hbehind := ih hrest
    have hsame : ('/' :: '*' :: (inner ++ '*' :: '/' :: cs)).getLast?.or previous =
        cs.getLast?.or (some '/') := by
      cases hcs : cs.getLast? <;> simp [List.getLast?_cons, List.getLast?_append, hcs]
    rwa [hsame]
  | unclosed _ hend => exact absurd hend hne

/-! ### What a scan sees of a compact form -/

namespace InStep

/-- **Behind a name character** a text and its compact form are the same, as long as a name goes
on. -/
theorem exists_run {a : Char} (h : InStep (some a) cs ds) (ha : isNameChar a = true) :
    ∃ w t t', cs = w ++ t ∧ ds = w ++ t' ∧ (∀ c ∈ w, isNameChar c = true) ∧
      t.head?.any isNameChar = false ∧ t'.head?.any isNameChar = false := by
  generalize hprevious : some a = previous at h
  induction h generalizing a with
  | @last _ gap _ hhead =>
    refine ⟨[], gap, [], rfl, rfl, by simp, ?_, rfl⟩
    cases hgap : gap.head? with
    | none => rfl
    | some c => simpa using (isCalm_iff.mp (hhead c hgap)).1
  | @cons previous gap space unit cs ds hgap hkeeps hspace hunit hunit' _ h ih =>
    subst hprevious
    by_cases hnil : gap = []
    · subst hnil
      rw [hspace, if_neg (by simp), List.nil_append, List.nil_append]
      -- The unit goes on with the name, or ends it.
      have hstop {c : Char} {text : List Char} (hcut : unit = c :: text) (hc : isNameChar c = false) :
          ∃ w t t', unit ++ cs = w ++ t ∧ unit ++ ds = w ++ t' ∧ (∀ c ∈ w, isNameChar c = true) ∧
            t.head?.any isNameChar = false ∧ t'.head?.any isNameChar = false := by
        subst hcut
        exact ⟨[], _, _, rfl, rfl, by simp, by simpa using hc, by simpa using hc⟩
      have hgo {c : Char} {text : List Char} (hcut : unit = text ++ [c])
          (hall : ∀ d ∈ unit, isNameChar d = true) :
          ∃ w t t', unit ++ cs = w ++ t ∧ unit ++ ds = w ++ t' ∧ (∀ c ∈ w, isNameChar c = true) ∧
            t.head?.any isNameChar = false ∧ t'.head?.any isNameChar = false := by
        obtain ⟨w, t, t', hcs, hds, hw, ht, ht'⟩ :=
          ih (hall c (by simp [hcut])) (by rw [hcut, List.getLast?_concat])
        exact ⟨unit ++ w, t, t', by rw [hcs, List.append_assoc], by rw [hds, List.append_assoc],
          List.forall_mem_append.mpr ⟨hall, hw⟩, ht, ht'⟩
      have hquoted {quote : Char} (hquote : isQuote quote = true) : isNameChar quote = false := by
        simp only [isQuote, Bool.or_eq_true, beq_iff_eq] at hquote
        rcases hquote with rfl | rfl <;> rfl
      cases hunit with
      | escape c =>
        cases hc : isNameChar c with
        | true =>
          have hall : ∀ d ∈ ['\\', c], isNameChar d = true :=
            List.forall_mem_cons.mpr ⟨rfl, by simpa using hc⟩
          exact hgo (show ['\\', c] = ['\\'] ++ [c] from rfl) hall
        | false =>
          exact ⟨['\\'], c :: cs, c :: ds, rfl, rfl, by simp [isNameChar], by simpa using hc,
            by simpa using hc⟩
      | backslash => exact hgo (show ['\\'] = [] ++ ['\\'] from rfl) (by simp [isNameChar])
      | quoted hquote => exact hstop rfl (hquoted hquote)
      | unclosed hquote => exact hstop rfl (hquoted hquote)
      | @single c =>
        cases hc : isNameChar c with
        | true => exact hgo (show [c] = [] ++ [c] from rfl) (by simpa using hc)
        | false => exact hstop rfl hc
    · refine ⟨[], _, _, rfl, rfl, by simp, ?_, ?_⟩
      · obtain ⟨c, gap, rfl⟩ := List.exists_cons_of_ne_nil hnil
        simpa using (isCalm_iff.mp ((gapKeeps_iff.mp hkeeps).1 c rfl)).1
      · rcases space_cases hspace hnil with rfl | ⟨rfl, hcalm | ⟨c, hc, hbefore⟩⟩
        · rfl
        · rw [(isCalm_iff.mp (hcalm a rfl)).1] at ha
          cases ha
        · change (unit ++ ds).head?.any isNameChar = false
          rw [List.head?_append_of_ne_nil _ hunit.ne_nil, Option.mem_def.mp hc]
          rcases hbefore with rfl | rfl <;> rfl

/-- **Whether a number is a length** is the same behind a name character. -/
theorem unsigned?_eq {a : Char} (h : InStep (some a) cs ds) (ha : isNameChar a = true)
    (w : List Char) : unsigned? (w ++ ds) = unsigned? (w ++ cs) := by
  obtain ⟨run, t, t', rfl, rfl, -, ht, ht'⟩ := h.exists_run ha
  rw [← List.append_assoc, ← List.append_assoc, unsigned?_append_of_stop ht,
    unsigned?_append_of_stop ht']

/-- A number that is no length does not become one. -/
theorem unsigned?_cons (h : InStep (some c) cs ds) (hnone : unsigned? (c :: cs) = none) :
    unsigned? (c :: ds) = none := by
  cases hc : isNameChar c with
  | true => exact (h.unsigned?_eq hc [c]).trans hnone
  | false => exact unsigned?_of_not_name hc ds

/-- Behind a plus sign no number becomes a length. -/
theorem unsigned?_plus (h : InStep (some '+') cs ds) (hnone : unsigned? cs = none) :
    unsigned? ds = none := by
  have hnotNumber {c : Char} (hc : c = ' ' ∨ c = ',' ∨ c = ')' ∨ c = '\\') (ds : List Char) :
      unsigned? (c :: ds) = none := by
    rcases hc with rfl | rfl | rfl | rfl <;> exact unsigned?_cons_eq_none rfl (by decide) ds
  generalize hprevious : some '+' = previous at h
  cases h with
  | last => rfl
  | @cons _ gap space unit cs ds hgap hkeeps hspace hunit hunit' hunitKeeps h =>
    subst hprevious
    by_cases hnil : gap = []
    · subst hnil
      rw [hspace, if_neg (by simp), List.nil_append]
      cases hunit with
      | escape | backslash => exact hnotNumber (by simp) _
      | quoted hquote | unclosed hquote =>
        simp only [isQuote, Bool.or_eq_true, beq_iff_eq] at hquote
        rcases hquote with rfl | rfl <;> exact unsigned?_cons_eq_none rfl (by decide) _
      | single => exact h.unsigned?_cons hnone
    · rcases space_cases hspace hnil with rfl | ⟨rfl, hcalm | ⟨c, hc, hbefore⟩⟩
      · exact hnotNumber (by simp) _
      · exact absurd rfl (isCalm_iff.mp (hcalm '+' rfl)).2
      · obtain ⟨unit, rfl⟩ := List.head?_eq_some_iff.mp hc
        exact hnotNumber (hbefore.imp_right Or.inl |>.elim (fun h => .inr (.inl h))
          fun h => .inr (.inr h)) _

/-- **A character that starts no length** does not come to start one. -/
theorem pixels?_eq_none (h : InStep (some c) cs ds) (hnone : pixels? previous c cs = none) :
    pixels? previous c ds = none := by
  unfold pixels? at hnone ⊢
  split at hnone
  · next hsign =>
    rw [if_pos hsign]
    split at hnone
    · next hprevious => rw [if_pos hprevious]
    · next hprevious =>
      rw [if_neg hprevious, Option.map_eq_none_iff]
      rw [Option.map_eq_none_iff] at hnone
      rcases hsign with rfl | rfl
      · exact h.unsigned?_plus hnone
      · exact (h.unsigned?_eq rfl []).trans hnone
  · next hsign =>
    rw [if_neg hsign]
    split at hnone
    · next hprevious => rw [if_pos hprevious]
    · next hprevious =>
      rw [if_neg hprevious, Option.map_eq_none_iff]
      rw [Option.map_eq_none_iff] at hnone
      exact h.unsigned?_cons hnone

/-- **What follows a letter directly** follows it in both texts, or in none of them. -/
theorem adjacent {a : Char} {rest : List Char} (h : InStep (some a) cs ds) (ha : isNameChar a = true)
    (hc : c.toLower ∈ ['r', 'l', '(']) (hfirst : c :: rest = cs ∨ c :: rest = ds) :
    ∃ more more', cs = c :: more ∧ ds = c :: more' ∧ InStep (some c) more more' ∧
      (rest = more ∨ rest = more') := by
  have hne {d : Char} (hd : d.toLower ∉ ['r', 'l', '(']) : c ≠ d := by
    rintro rfl
    exact hd hc
  have hgapHead {behind gap : List Char} (hgap : IsGap behind gap) : gap.head? ≠ some c := by
    intro hhead
    cases hgap with
    | nil => cases hhead
    | white hwhite =>
      obtain rfl := Option.some.inj hhead
      rw [Text.toLower_of_isWhiteSpace hwhite] at hc
      simp only [List.mem_cons, List.not_mem_nil, or_false] at hc
      rcases hc with rfl | rfl | rfl <;> cases hwhite
    | comment | unclosed => exact hne (by decide) (Option.some.inj hhead).symm
  have hhead : cs.head? = some c ∨ ds.head? = some c :=
    hfirst.imp (fun heq => by rw [← heq]; rfl) fun heq => by rw [← heq]; rfl
  generalize hprevious : some a = previous at h
  cases h with
  | last hgap => exact absurd (hhead.resolve_right (by simp)) (hgapHead hgap)
  | @cons _ gap space unit cs ds hgap hkeeps hspace hunit hunit' hunitKeeps h =>
    subst hprevious
    have hquote : isQuote c = false := by
      by_contra hquote
      simp only [Bool.not_eq_false, isQuote, Bool.or_eq_true, beq_iff_eq] at hquote
      rcases hquote with rfl | rfl <;> exact absurd hc (by decide)
    by_cases hnil : gap = []
    · subst hnil
      rw [hspace, if_neg (by simp), List.nil_append, List.nil_append] at hhead hfirst ⊢
      rw [List.head?_append_of_ne_nil _ hunit.ne_nil, List.head?_append_of_ne_nil _ hunit.ne_nil,
        or_self, hunit.head?_iff (hne (by decide)) hquote] at hhead
      subst hhead
      exact ⟨cs, ds, rfl, rfl, h, hfirst.imp List.tail_eq_of_cons_eq List.tail_eq_of_cons_eq⟩
    · rw [List.head?_append_of_ne_nil _ hnil] at hhead
      have hbehind := hhead.resolve_left (hgapHead hgap)
      rcases space_cases hspace hnil with rfl | ⟨rfl, hcalm | ⟨d, hd, hbefore⟩⟩
      · exact absurd (Option.some.inj hbehind).symm (hne (by decide))
      · rw [(isCalm_iff.mp (hcalm a rfl)).1] at ha
        cases ha
      · rw [List.nil_append, List.head?_append_of_ne_nil _ hunit.ne_nil,
          Option.mem_def.mp hd] at hbehind
        obtain rfl := Option.some.inj hbehind
        rcases hbefore with rfl | rfl <;> exact absurd hc (by decide)

/-- **The start of an address** is one in both texts, or in none of them. -/
theorem url_cases {u : Char} (h : InStep (some u) cs ds) :
    (Text.eqIgnoringCase (u :: cs.take 3) ['u', 'r', 'l', '('] = false ∧
      Text.eqIgnoringCase (u :: ds.take 3) ['u', 'r', 'l', '('] = false) ∨
    ∃ r l p more more', cs = r :: l :: p :: more ∧ ds = r :: l :: p :: more' ∧
      InStep (some p) more more' := by
  have hstarts {es : List Char}
      (hname : Text.eqIgnoringCase (u :: es.take 3) ['u', 'r', 'l', '('] = true) :
      ∃ r l p rest, es = r :: l :: p :: rest ∧ u.toLower = 'u' ∧ r.toLower = 'r' ∧ l.toLower = 'l' ∧
        p.toLower = '(' := by
    obtain ⟨name, rest, rfl, hlength⟩ := exists_of_eqIgnoringCase_take hname
    obtain ⟨r, l, p, rfl⟩ := List.length_eq_three.mp hlength
    exact ⟨r, l, p, rest, rfl, by simpa [Text.eqIgnoringCase] using hname⟩
  have hletter {a d : Char} (ha : a.toLower = d) (hd : isPlain d = true) : isNameChar a = true :=
    isNameChar_of_isPlain (isPlain_of_toLower (by rwa [ha]))
  have hboth {es : List Char} (hes : es = cs ∨ es = ds)
      (hname : Text.eqIgnoringCase (u :: es.take 3) ['u', 'r', 'l', '('] = true) :
      ∃ r l p more more', cs = r :: l :: p :: more ∧ ds = r :: l :: p :: more' ∧
        InStep (some p) more more' := by
    obtain ⟨r, l, p, rest, rfl, hu, hr, hl, hp⟩ := hstarts hname
    have hr' : r.toLower ∈ ['r', 'l', '('] := by simp [hr]
    have hl' : l.toLower ∈ ['r', 'l', '('] := by simp [hl]
    have hp' : p.toLower ∈ ['r', 'l', '('] := by simp [hp]
    obtain ⟨cs₁, ds₁, rfl, rfl, h, hes⟩ := h.adjacent (hletter hu rfl) hr' hes
    obtain ⟨cs₂, ds₂, rfl, rfl, h, hes⟩ := h.adjacent (hletter hr rfl) hl' hes
    obtain ⟨cs₃, ds₃, rfl, rfl, h, -⟩ := h.adjacent (hletter hl rfl) hp' hes
    exact ⟨r, l, p, cs₃, ds₃, rfl, rfl, h⟩
  by_cases hcs : Text.eqIgnoringCase (u :: cs.take 3) ['u', 'r', 'l', '('] = true
  · exact .inr (hboth (.inl rfl) hcs)
  · by_cases hds : Text.eqIgnoringCase (u :: ds.take 3) ['u', 'r', 'l', '('] = true
    · exact .inr (hboth (.inr rfl) hds)
    · exact .inl ⟨by simpa using hcs, by simpa using hds⟩

end InStep

/-- An address goes on over a gap that has nothing to do with it. -/
theorem addressLength_gap (hgap : ∀ c ∈ gap, isQuote c = false ∧ c ≠ ')' ∧ c ≠ '\\')
    (cs : List Char) : addressLength (gap ++ cs) = gap.length + addressLength cs := by
  induction gap with
  | nil => simp
  | cons c gap ih =>
    obtain ⟨⟨hquote, hparen, hslash⟩, hgap⟩ := List.forall_mem_cons.mp hgap
    rw [List.cons_append, addressLength_cons_of_ne _ hslash, if_neg (by simp [hquote]),
      if_neg hparen, ih hgap, List.length_cons]
    omega

/-- It goes on over a unit other than its closing parenthesis. -/
theorem addressLength_unit (hunit : IsUnit cs unit) (hne : unit ≠ [')']) :
    addressLength (unit ++ cs) = unit.length + addressLength cs := by
  have hopens {quote : Char} (hquote : isQuote quote = true) (text : List Char) :
      addressLength (quote :: text) =
        addressLength (text.drop (quotedTail quote text)) + quotedTail quote text + 1 := by
    rw [addressLength_cons_of_ne _ (Compact.ne_backslash_of_isQuote hquote), if_pos hquote]
  cases hunit with
  | escape c =>
    change addressLength ('\\' :: c :: cs) = 2 + addressLength cs
    rw [addressLength_escape, Nat.add_comm]
  | backslash hend =>
    subst hend
    change addressLength ['\\'] = 1 + addressLength []
    rw [addressLength_backslash, addressLength_nil]
  | @quoted quote inner hquote hinner =>
    have htail : quotedTail quote (inner ++ quote :: cs) = inner.length + 1 := by
      rw [Compact.quotedTail_of_quotes hinner,
        quotedTail_cons_of_ne _ (Compact.ne_backslash_of_isQuote hquote), if_pos rfl]
    have hdrop : (inner ++ quote :: cs).drop (inner.length + 1) = cs := by
      simp [List.drop_append]
    rw [List.cons_append, List.append_assoc, List.singleton_append, hopens hquote, htail, hdrop,
      List.length_cons, List.length_append, List.length_singleton]
    omega
  | @unclosed quote inner slash hquote hinner hslash hend =>
    subst hend
    have htail : quotedTail quote (inner ++ slash) = (inner ++ slash).length := by
      rw [Compact.quotedTail_of_quotes hinner, List.length_append]
      rcases hslash with rfl | rfl <;> rfl
    rw [List.append_nil, hopens hquote, htail, List.drop_length, addressLength_nil,
      List.length_cons]
    omega
  | @single c hslash hquote =>
    have hparen : c ≠ ')' := by
      rintro rfl
      exact hne rfl
    rw [List.singleton_append, addressLength_cons_of_ne _ hslash, if_neg (by simp [hquote]),
      if_neg hparen, List.length_singleton, Nat.add_comm]

namespace InStep

/-- **An address ends with the same parenthesis** in both texts, or it has no end in the compact
form. -/
theorem exists_address (h : InStep previous cs ds) :
    ds.length ≤ addressLength ds ∨ ∃ body body' more more', cs = body ++ ')' :: more ∧
      ds = body' ++ ')' :: more' ∧ addressLength cs = body.length + 1 ∧
        addressLength ds = body'.length + 1 ∧ InStep (some ')') more more' := by
  induction h with
  | last => exact .inl (Nat.zero_le _)
  | @cons previous gap space unit cs ds hgap hkeeps hspace hunit hunit' hunitKeeps h ih =>
    have hspaceKeeps := (gapKeeps_iff.mp (gapKeeps_space hspace)).2.2
    rw [addressLength_gap (gapKeeps_iff.mp hkeeps).2.2, addressLength_gap hspaceKeeps]
    by_cases hne : unit = [')']
    · subst hne
      have hend (es : List Char) : addressLength ([')'] ++ es) = 1 := by
        rw [List.singleton_append, addressLength_cons_of_ne _ (by decide), if_neg (by decide),
          if_pos rfl]
      exact .inr ⟨gap, space, cs, ds, rfl, rfl, by rw [hend], by rw [hend], h⟩
    · rw [addressLength_unit hunit hne, addressLength_unit hunit' hne]
      refine ih.imp (fun hlength => ?_) ?_
      · rw [List.length_append, List.length_append]
        omega
      · rintro ⟨body, body', more, more', rfl, rfl, hlength, hlength', h⟩
        refine ⟨gap ++ (unit ++ body), space ++ (unit ++ body'), more, more', by simp, by simp, ?_, ?_,
          h⟩ <;> simp only [List.length_append] <;> omega

end InStep

/-! ### What stands in front -/

/-- **What matters of the character in front** is the same. -/
def Agree (previous previous' : Option Char) : Prop :=
  previous'.any isNameChar = previous.any isNameChar ∧
    previous'.any (fun p => isNameChar p || p == '+') =
      previous.any fun p => isNameChar p || p == '+'

theorem Agree.segments_eq {previous' : Option Char} (h : Agree previous previous') (cs : List Char) :
    segments previous' cs = segments previous cs := by
  cases cs with
  | nil => rw [segments, segments]
  | cons c cs => rw [segments, segments, protectedTail?, protectedTail?, pixels?, pixels?, h.1, h.2]

/-- Calm characters agree, with each other and with the start of a text. -/
theorem agree_of_isCalm {previous' : Option Char} (h : ∀ c ∈ previous, isCalm c = true)
    (h' : ∀ c ∈ previous', isCalm c = true) : Agree previous previous' := by
  have hnone {a : Option Char} (ha : ∀ c ∈ a, isCalm c = true) :
      a.any isNameChar = false ∧ a.any (fun p => isNameChar p || p == '+') = false := by
    cases a with
    | none => exact ⟨rfl, rfl⟩
    | some c =>
      obtain ⟨hname, hplus⟩ := isCalm_iff.mp (ha c rfl)
      exact ⟨hname, by simp [hname, hplus]⟩
  rw [Agree, (hnone h).1, (hnone h).2, (hnone h').1, (hnone h').2]
  exact ⟨rfl, rfl⟩

/-- What stands in front of a comma or a closing parenthesis does not matter. -/
theorem segments_mark (hc : c = ',' ∨ c = ')') (previous : Option Char) (cs : List Char) :
    segments previous (c :: cs) = .text [c] :: segments (some c) cs := by
  have hprotected : protectedTail? previous c cs = none := by
    rcases hc with rfl | rfl <;> simp [protectedTail?, isQuote, Text.eqIgnoringCase]
  have hpixels : pixels? previous c cs = none := by
    have hnone : unsigned? (c :: cs) = none := by
      rcases hc with rfl | rfl <;> exact unsigned?_of_not_name rfl cs
    rw [pixels?, if_neg (by rcases hc with rfl | rfl <;> decide), hnone]
    split <;> rfl
  rw [segments, hprotected]
  dsimp only
  rw [hpixels]

/-- **A gap and what is written for it** are the same to what follows. -/
theorem isSettled_behind (hgap : IsGap (unit ++ cs) gap) (hkeeps : gapKeeps gap = true)
    (hspace : space = if gap != [] && valueTightness.spaces previous unit.head? then [' '] else [])
    (hunit : unit ≠ []) (h : IsSettled previous (gap ++ (unit ++ cs))) :
    IsSettled (space.getLast?.or previous) (unit ++ cs) := by
  have hbehind := isSettled_of_isGap hgap (by simp [hunit]) h
  by_cases hnil : gap = []
  · subst hnil
    rw [hspace, if_neg (by simp)]
    exact hbehind
  have hcalm : ∀ c ∈ gap.getLast?.or previous, isCalm c = true := by
    rw [List.getLast?_eq_some_getLast hnil, Option.some_or]
    intro c hc
    exact (gapKeeps_iff.mp hkeeps).2.1 c
      ((List.getLast?_eq_some_getLast hnil).trans hc)
  rw [IsSettled] at hbehind ⊢
  rcases space_cases hspace hnil with rfl | ⟨rfl, hprevious | ⟨c, hc, hbefore⟩⟩
  · have hblank : ∀ c ∈ [' '].getLast?.or previous, isCalm c = true := by
      intro c hc
      obtain rfl : ' ' = c := Option.some.inj hc
      rfl
    rwa [← (agree_of_isCalm hcalm hblank).segments_eq] at hbehind
  · rwa [← (agree_of_isCalm hcalm hprevious).segments_eq] at hbehind
  · obtain ⟨text, rfl⟩ := List.head?_eq_some_iff.mp hc
    rw [List.cons_append, segments_mark hbefore] at hbehind ⊢
    exact hbehind

/-- A space in front changes nothing. -/
theorem isSettled_space
    (hspace : space = if gap != [] && valueTightness.spaces previous unit.head? then [' '] else [])
    (h : IsSettled (space.getLast?.or previous) cs) : IsSettled previous (space ++ cs) := by
  rw [hspace] at h ⊢
  split at h
  · next hcond =>
    rw [if_pos hcond]
    refine isSettled_of_none (protectedTail?_of_isWhiteSpace rfl _ _) ?_ h
    rw [pixels?, if_neg (by decide), unsigned?_of_not_name rfl]
    split <;> rfl
  · next hcond =>
    rw [if_neg hcond]
    exact h

/-! ### Values and their compact forms -/

/-- A backslash is neither protected nor converted. -/
theorem backslash_spec (previous : Option Char) (cs : List Char) :
    protectedTail? previous '\\' cs = none ∧ pixels? previous '\\' cs = none := by
  constructor
  · simp [protectedTail?, isQuote, Text.eqIgnoringCase]
  · rw [pixels?, if_neg (by decide), unsigned?_cons_eq_none rfl (by decide)]
    split <;> rfl

/-- A string is protected up to its closing quote. -/
theorem protectedTail?_quoted {quote : Char} {inner : List Char} (hquote : isQuote quote = true)
    (hinner : Quotes quote inner) (previous : Option Char) (cs : List Char) :
    protectedTail? previous quote (inner ++ [quote] ++ cs) = some (inner ++ [quote]).length := by
  rw [protectedTail?, if_pos hquote, List.append_assoc, Compact.quotedTail_of_quotes hinner,
    List.singleton_append, quotedTail_cons_of_ne _ (Compact.ne_backslash_of_isQuote hquote),
    if_pos rfl, List.length_append, List.length_singleton]

namespace InStep

theorem eq_nil (h : InStep previous [] ds) : ds = [] := by
  generalize hcs : [] = cs at h
  cases h with
  | last => exact hcs
  | cons hgap hkeeps hspace hunit =>
    exact absurd (List.append_eq_nil_iff.mp (List.append_eq_nil_iff.mp hcs.symm).2).1 hunit.ne_nil

/-- **An address in front** is protected in both texts. -/
theorem isSettled_url {r l p : Char} {more more' : List Char} (h : InStep (some p) more more')
    (hstart : protectedTail? previous c (r :: l :: p :: more) = some (addressLength more + 3))
    (hstart' : protectedTail? previous c (r :: l :: p :: more') = some (addressLength more' + 3))
    (ih : ∀ {previous rest rest'}, rest.length ≤ more.length → InStep previous rest rest' →
      IsSettled previous rest → IsSettled previous rest')
    (hs : IsSettled previous (c :: r :: l :: p :: more)) :
    IsSettled previous (c :: r :: l :: p :: more') := by
  have hs := hs.of_protected hstart
  refine isSettled_of_protected hstart' ?_
  rcases h.exists_address with
    hopen | ⟨body, body', rest, rest', rfl, rfl, hlength, hlength', hrest⟩
  · rw [List.drop_of_length_le (by simpa using hopen)]
    exact isSettled_nil _
  · have hcut (body rest : List Char) :
        (c :: (r :: l :: p :: (body ++ ')' :: rest)).take (body.length + 1 + 3)).getLast? =
            some ')' ∧
          (r :: l :: p :: (body ++ ')' :: rest)).drop (body.length + 1 + 3) = rest := by
      have hsplit : r :: l :: p :: (body ++ ')' :: rest) =
          r :: l :: p :: (body ++ [')']) ++ rest := by simp
      rw [hsplit, List.take_left' (by simp), List.drop_left' (by simp)]
      exact ⟨by simp [List.getLast?_cons, List.getLast?_append], rfl⟩
    rw [hlength, (hcut body rest).1, (hcut body rest).2] at hs
    rw [hlength', (hcut body' rest').1, (hcut body' rest').2]
    exact ih (by simp only [List.length_cons, List.length_append]; omega) hrest hs

/-- **A character in front** that is part of no string and no comment. -/
theorem isSettled_single (hquote : isQuote c = false)
    (hcomment : ¬(c = '/' ∧ cs.head? = some '*')) (hcomment' : ¬(c = '/' ∧ ds.head? = some '*'))
    (h : InStep (some c) cs ds)
    (ih : ∀ {previous more more'}, more.length ≤ cs.length → InStep previous more more' →
      IsSettled previous more → IsSettled previous more')
    (hs : IsSettled previous (c :: cs)) : IsSettled previous (c :: ds) := by
  have hprotected {es : List Char} (hes : ¬(c = '/' ∧ es.head? = some '*')) :
      protectedTail? previous c es =
        if !previous.any isNameChar &&
            Text.eqIgnoringCase (c :: es.take 3) ['u', 'r', 'l', '('] then
          some (addressLength (es.drop 3) + 3)
        else none := by
    rw [protectedTail?, if_neg (by simp [hquote]), if_neg hes]
  have hplain (hnone : protectedTail? previous c cs = none)
      (hnone' : protectedTail? previous c ds = none) : IsSettled previous (c :: ds) := by
    obtain ⟨hpixels, hs⟩ := hs.of_none hnone
    exact isSettled_of_none hnone' (h.pixels?_eq_none hpixels) (ih le_rfl h hs)
  rcases h.url_cases with ⟨hcs, hds⟩ | ⟨r, l, p, more, more', rfl, rfl, hbody⟩
  · exact hplain (by rw [hprotected hcomment, hcs, Bool.and_false, if_neg Bool.false_ne_true])
      (by rw [hprotected hcomment', hds, Bool.and_false, if_neg Bool.false_ne_true])
  cases hurl : !previous.any isNameChar &&
      Text.eqIgnoringCase (c :: [r, l, p]) ['u', 'r', 'l', '('] with
  | false =>
    exact hplain ((hprotected hcomment).trans (if_neg (by simpa using hurl)))
      ((hprotected hcomment').trans (if_neg (by simpa using hurl)))
  | true =>
    refine isSettled_url hbody ((hprotected hcomment).trans (if_pos hurl))
      ((hprotected hcomment').trans (if_pos hurl)) (fun hlength => ih ?_) hs
    simp only [List.length_cons]
    omega

/-- **A unit in front**: if there is nothing to convert in the text, there is nothing in the compact
form, as long as this is so for what follows. -/
theorem isSettled_unit (hunit : IsUnit cs unit) (hunit' : IsUnit ds unit)
    (hkeeps : unitKeeps unit = true) (h : InStep unit.getLast? cs ds)
    (ih : ∀ {previous more more'}, more.length ≤ cs.length → InStep previous more more' →
      IsSettled previous more → IsSettled previous more')
    (hs : IsSettled previous (unit ++ cs)) : IsSettled previous (unit ++ ds) := by
  cases hunit with
  | escape c =>
    obtain ⟨hquote, hslash⟩ : isQuote c = false ∧ c ≠ '/' := by simpa [unitKeeps] using hkeeps
    have hsecond (es : List Char) : protectedTail? (some '\\') c es = none := by
      rw [protectedTail?, if_neg (by simp [hquote]), if_neg fun hcomment => hslash hcomment.1]
      rfl
    obtain ⟨-, hs⟩ := hs.of_none (backslash_spec _ _).1
    obtain ⟨-, hs⟩ := hs.of_none (hsecond _)
    exact isSettled_of_none (backslash_spec _ _).1 (backslash_spec _ _).2
      (isSettled_of_none (hsecond _) (pixels?_of_name rfl _ _) (ih le_rfl h hs))
  | backslash hend =>
    subst hend
    rw [h.eq_nil]
    exact isSettled_of_none (backslash_spec _ _).1 (backslash_spec _ _).2 (isSettled_nil _)
  | @quoted quote inner hquote hinner =>
    have hopen : IsSettled previous (quote :: (inner ++ [quote] ++ cs)) := hs
    have hrest := hopen.of_protected (protectedTail?_quoted hquote hinner _ _)
    rw [List.take_left, List.drop_left] at hrest
    have hsettled : IsSettled previous (quote :: (inner ++ [quote] ++ ds)) := by
      refine isSettled_of_protected (protectedTail?_quoted hquote hinner _ _) ?_
      rw [List.take_left, List.drop_left]
      exact ih le_rfl h hrest
    exact hsettled
  | @unclosed quote inner slash hquote hinner hslash hend =>
    subst hend
    rw [h.eq_nil, List.append_nil]
    refine isSettled_of_protected (n := (inner ++ slash).length) ?_ ?_
    · rw [protectedTail?, if_pos hquote, Compact.quotedTail_of_quotes hinner, List.length_append]
      rcases hslash with rfl | rfl <;> rfl
    · rw [List.drop_length]
      exact isSettled_nil _
  | @single c _ hquote _ hcomment =>
    obtain ⟨d, text, hcut, hscan, -⟩ := hunit'.exists_scan
    obtain ⟨rfl, rfl⟩ := List.cons.inj hcut
    exact isSettled_single hquote hcomment (separatorTail?_eq_none_iff.mp hscan).2 h ih hs

/-- **If there is nothing to convert in a text, there is nothing in its compact form.** -/
theorem isSettled (h : InStep previous cs ds) (hs : IsSettled previous cs) :
    IsSettled previous ds := by
  induction hn : cs.length using Nat.strong_induction_on generalizing previous cs ds with
  | _ n ih =>
    subst hn
    cases h with
    | last => exact isSettled_nil _
    | cons hgap hkeeps hspace hunit hunit' hunitKeeps h =>
      refine isSettled_space hspace (isSettled_unit hunit hunit' hunitKeeps h ?_
        (isSettled_behind hgap hkeeps hspace hunit.ne_nil hs))
      intro previous more more' hlength h hs
      have hpositive := List.length_pos_iff.mpr hunit.ne_nil
      exact ih _ (by simp only [List.length_append]; omega) h hs rfl

end InStep

/-- A text on which the scan and compaction agree is in step with its compact form. -/
theorem inStep_of_compacted (h : Compacted valueTightness previous cs ds)
    (hkeeps : inStep cs = true) : InStep previous cs ds := by
  induction h with
  | @last _ gap hgap =>
    have hpieces := Compact.pieces_of_isGap hgap []
    rw [List.append_nil, List.nil_append, pieces] at hpieces
    rw [inStep, hpieces] at hkeeps
    exact .last hgap (by simpa [Option.all_eq_true] using hkeeps)
  | cons hgap hspace hunit hunit' h ih =>
    rw [inStep, Compact.pieces_of_isGap hgap, List.nil_append, Compact.pieces_of_isUnit hunit,
      List.all_cons, Bool.and_assoc, Bool.and_assoc] at hkeeps
    obtain ⟨hgapKeeps, hunitKeeps, hkeeps⟩ : _ ∧ _ ∧ _ := by simpa only [Bool.and_eq_true] using hkeeps
    exact .cons hgap hgapKeeps hspace hunit hunit' hunitKeeps
      (ih (Bool.and_eq_true_iff.mpr hkeeps))

end Length

/-- **No length comes into being** where a value with nothing to convert is compacted: the letters
of the unit are gone, or the scan and compaction agree on the value. -/
def keepsLengths (value : String) : Bool :=
  !Length.mentionsPx (compactValue value).toList || Length.inStep value.toList

/-- **A value with nothing to convert** has a compact form with nothing to convert. -/
theorem pxToRem_compactValue {value : String} {root : Nat} (hvalue : pxToRem root value = value)
    (h : keepsLengths value = true) : pxToRem root (compactValue value) = compactValue value := by
  by_cases hroot : root = 0
  · rw [pxToRem, if_pos (.inl hroot)]
  rcases Bool.or_eq_true_iff.mp h with h | h
  · rw [pxToRem, if_pos (.inr h)]
  · have hsettled := Length.isSettled_converted hroot none value.toList none (.inl rfl)
    have hsame : Length.converted root none value.toList = value.toList := by
      rw [← String.toList_ofList (l := Length.converted root none value.toList), ← pxToRem_eq hroot,
        hvalue]
    rw [hsame] at hsettled
    have hcompacted := compacted_compact Compact.valueTightness_harmless value.toList
    have hcompact := (Length.inStep_of_compacted hcompacted h).isSettled hsettled
    rw [pxToRem_eq hroot, compactValue, String.toList_ofList, Length.converted_of_isSettled hcompact]

-- A space that does not break is part of a name for the scan, and is written as another space.
example : pxToRem 16 "x\u00a016px" = "x\u00a016px" ∧ compactValue "x\u00a016px" = "x 16px" ∧
    pxToRem 16 "x 16px" = "x 1rem" := by decide +kernel

end Value

end LosslessCss
