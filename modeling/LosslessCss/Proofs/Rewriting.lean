import LosslessCss.Value.Length
import LosslessCss.Proofs.Boundaries
import LosslessCss.Proofs.Cutting

/-!
# Texts in which numbers were rewritten

Where a length is rewritten in a text, a run of digits, letters, points and minus signs takes the
place of another one, and a plus sign in front of it may go.  No such run starts behind a backslash
or inside a name.  This is all that lexical analysis needs to know of what happened
(`Rewritten`), and it is little enough to be read alike: the characters of a length end nothing that
is under way, and start nothing but words.

Only the plus sign makes a difference.  It was a token, and with it goes the reason for which the
word in front of it had to end, so the length becomes part of that word.  Hence the rewritten text
has the same lexemes, except that some words and combinators have become part of the word behind
them (`Token.Kind.Merged`).

## Main Definitions

* `Value.Length.IsLength`, `Rewritten` : texts in which lengths were rewritten
* `Token.Kind.Merged` : kinds of lexemes, some of which became part of the word behind them

## Main Statements

* `Token.Scans.rewritten` : a token of a rewritten text
* `Lexes.rewritten`, `Lexes.rewritten_behind` : a rewritten text is read alike, and so is the text
  in front of it
-/

namespace LosslessCss

open Token (Mode Scans Kind)

/-! ### The characters of lengths -/

namespace Value.Length

/-- The characters of which lengths are made, a plus sign apart. -/
def isPlain (c : Char) : Bool := c.isAlphanum || c == '.' || c == '-'

/-- The characters with which a length starts, and no letter. -/
def isLead (c : Char) : Bool := c.isDigit || c == '.' || c == '-'

/-- **A text like a length**, without a plus sign. -/
structure IsLength (cs : List Char) : Prop where
  plain : ∀ c ∈ cs, isPlain c = true
  digit : ∃ c ∈ cs, c.isDigit = true
  lead : ∀ c ∈ cs.head?, isLead c = true

theorem isLead_of_isDigit {c : Char} (h : c.isDigit = true) : isLead c = true := by
  simp [isLead, h]

theorem isPlain_of_isLead {c : Char} (h : isLead c = true) : isPlain c = true := by
  simp only [isLead, Bool.or_eq_true] at h
  simp only [isPlain, Char.isAlphanum, Bool.or_eq_true]
  tauto

/-- A character is of a length if its small letter is. -/
theorem isPlain_of_toLower {c : Char} (h : isPlain c.toLower = true) : isPlain c = true := by
  rw [Char.toLower] at h
  split at h
  · next hupper =>
    have hle : c.isUpper = true := by
      simpa [Char.isUpper] using hupper
    simp [isPlain, Char.isAlphanum, Char.isAlpha, hle]
  · exact h

theorem isNameChar_of_isPlain {c : Char} (h : isPlain c = true) : isNameChar c = true := by
  simp only [isPlain, Bool.or_eq_true] at h
  simp only [isNameChar, Bool.or_eq_true]
  tauto

section Plain

variable {c : Char} (h : isPlain c = true)

include h

theorem ne_of_plain {d : Char} (hd : isPlain d = false) : c ≠ d := by
  rintro rfl
  rw [h] at hd
  cases hd

theorem isBlank_of_plain : Token.isBlank c = false := by
  simp (disch := decide) [Token.isBlank, ne_of_plain h]

theorem endsWord_of_plain : Token.endsWord c = false := by
  simp (disch := decide) [Token.endsWord, isBlank_of_plain h, ne_of_plain h]

theorem endsAtWord_of_plain : Token.endsAtWord c = false := by
  simp (disch := decide) [Token.endsAtWord, isBlank_of_plain h, ne_of_plain h]

theorem startsAddress_of_plain : Token.startsAddress c = true := by
  simp (disch := decide) [Token.startsAddress, isBlank_of_plain h, ne_of_plain h]

theorem punctuation?_of_plain : Token.punctuation? c = none := by
  unfold Token.punctuation?
  split <;> first | rfl | exact absurd h (by decide)

theorem not_wordEnds_of_plain (cs : List Char) : ¬Token.WordEnds (c :: cs) := by
  intro hends
  rcases hends c rfl with hends | ⟨hslash, -⟩
  · rw [endsWord_of_plain h] at hends
    cases hends
  · exact ne_of_plain h (by decide) hslash

/-- A character of a length starts a word. -/
theorem startsWord_of_plain (cs : List Char) : Token.StartsWord c cs := by
  exact ⟨isBlank_of_plain h, punctuation?_of_plain h, ne_of_plain h (by decide),
    ne_of_plain h (by decide), ne_of_plain h (by decide),
    fun hcomment => ne_of_plain h (by decide) hcomment.1⟩

end Plain

theorem isPlain_of_isWhiteSpace {c : Char} (h : Text.isWhiteSpace c = true) :
    isPlain c = false := by
  by_contra hplain
  simp only [Bool.not_eq_false, isPlain, Char.isAlphanum, Char.isAlpha, Char.isUpper, Char.isLower,
    Char.isDigit, Bool.or_eq_true, Bool.and_eq_true, decide_eq_true_eq, beq_iff_eq] at hplain
  have hn : 45 ≤ c.toNat ∧ c.toNat ≤ 122 := by
    have hnat {m n : UInt32} (hge : m ≤ c.val) (hle : c.val ≤ n) :
        m.toNat ≤ c.toNat ∧ c.toNat ≤ n.toNat :=
      ⟨UInt32.le_iff_toNat_le.mp hge, UInt32.le_iff_toNat_le.mp hle⟩
    rcases hplain with (((⟨hge, hle⟩ | ⟨hge, hle⟩) | ⟨hge, hle⟩) | rfl) | rfl
    · exact (hnat hge hle).imp (le_trans (by decide)) (le_trans · (by decide))
    · exact (hnat hge hle).imp (le_trans (by decide)) (le_trans · (by decide))
    · exact (hnat hge hle).imp (le_trans (by decide)) (le_trans · (by decide))
    · decide
    · decide
  simp only [Text.isWhiteSpace, Bool.or_eq_true, Bool.and_eq_true, decide_eq_true_eq,
    beq_iff_eq] at h
  omega

theorem isPlain_of_isBlank {c : Char} (h : Token.isBlank c = true) : isPlain c = false := by
  by_contra hplain
  rw [isBlank_of_plain (by simpa using hplain)] at h
  cases h

/-- A blank character is none of a name. -/
theorem isNameChar_of_isBlank {c : Char} (h : Token.isBlank c = true) : isNameChar c = false := by
  simp only [Token.isBlank, Bool.or_eq_true, beq_iff_eq] at h
  rcases h with (((rfl | rfl) | rfl) | rfl) | rfl <;> rfl

theorem isNameChar_of_punctuation? {c : Char} {kind : Kind} (h : Token.punctuation? c = some kind) :
    isNameChar c = false := by
  unfold Token.punctuation? at h
  split at h <;> first | rfl | cases h

theorem isPlain_of_punctuation? {c : Char} {kind : Kind} (h : Token.punctuation? c = some kind) :
    isPlain c = false := by
  by_contra hplain
  rw [punctuation?_of_plain (by simpa using hplain)] at h
  cases h

/-- What starts a length is no letter. -/
theorem toLower_of_isLead {c : Char} (h : isLead c = true) : c.toLower = c := by
  rw [Char.toLower, dif_neg]
  rintro ⟨hge, hle⟩
  have hge' : 65 ≤ c.toNat := UInt32.le_iff_toNat_le.mp hge
  simp only [isLead, Char.isDigit, Bool.or_eq_true, Bool.and_eq_true, decide_eq_true_eq,
    beq_iff_eq] at h
  rcases h with (⟨-, hle'⟩ | rfl) | rfl
  · have hle'' : c.toNat ≤ 57 := UInt32.le_iff_toNat_le.mp hle'
    omega
  · simp at hge'
  · simp at hge'

/-- A word of letters has nothing that starts a length, whatever the case. -/
theorem eqIgnoringCase_of_isLead {text word : List Char} {c : Char} (hc : c ∈ text)
    (hlead : isLead c = true) (hword : ∀ d ∈ word, isLead d.toLower = false) :
    Text.eqIgnoringCase text word = false := by
  rw [Text.eqIgnoringCase, beq_eq_false_iff_ne]
  intro hmap
  have hmem : c.toLower ∈ text.map Char.toLower := List.mem_map_of_mem hc
  rw [hmap, toLower_of_isLead hlead, List.mem_map] at hmem
  obtain ⟨d, hd, rfl⟩ := hmem
  rw [hword d hd] at hlead
  cases hlead

theorem isLead_url : ∀ d ∈ ['u', 'r', 'l'], isLead d.toLower = false := by
  simp only [List.forall_mem_cons]
  exact ⟨rfl, rfl, rfl, by simp⟩

namespace IsLength

variable {cs : List Char}

theorem ne_nil (h : IsLength cs) : cs ≠ [] := by
  rintro rfl
  obtain ⟨c, hc, -⟩ := h.digit
  cases hc

theorem exists_lead (h : IsLength cs) : ∃ c cs', cs = c :: cs' ∧ isLead c = true := by
  obtain ⟨c, cs', rfl⟩ := List.exists_cons_of_ne_nil h.ne_nil
  exact ⟨c, cs', rfl, h.lead c rfl⟩

/-- Two characters next to each other in a length and its sign. -/
theorem of_pair (h : IsLength cs) {sign front back : List Char} {a b : Char}
    (hsign : sign = [] ∨ sign = ['+']) (hcut : sign ++ cs = front ++ b :: a :: back) :
    (isPlain b = true ∨ b = '+') ∧ isPlain a = true := by
  have hplain {ds : List Char} (hcs : cs = ds ++ b :: a :: back) :
      (isPlain b = true ∨ b = '+') ∧ isPlain a = true := by
    have hall := h.plain
    rw [hcs] at hall
    exact ⟨.inl (hall b (by simp)), hall a (by simp)⟩
  rcases hsign with rfl | rfl
  · exact hplain hcut
  · cases front with
    | nil =>
      obtain ⟨rfl, rfl⟩ := List.cons.inj hcut
      exact ⟨.inr rfl, h.plain a List.mem_cons_self⟩
    | cons c front => exact hplain (List.cons.inj hcut).2

end IsLength

end Value.Length

open Value.Length

/-! ### Rewritten texts -/

/-- **A text in which lengths were rewritten**; `previous` is the character in front, and nothing
was rewritten that is glued to a name. -/
inductive Rewritten : Option Char → List Char → List Char → Prop
  | nil (previous : Option Char) : Rewritten previous [] []
  | keep {previous : Option Char} (c : Char) {cs ds : List Char} (h : Rewritten (some c) cs ds) :
      Rewritten previous (c :: cs) (c :: ds)
  | length {previous : Option Char} {sign old new cs ds : List Char}
      (hprevious : previous.any isNameChar = false) (hsign : sign = [] ∨ sign = ['+'])
      (hold : IsLength old) (hnew : IsLength new) (h : Rewritten old.getLast? cs ds) :
      Rewritten previous (sign ++ (old ++ cs)) (new ++ ds)

namespace Rewritten

variable {previous : Option Char} {cs ds : List Char}

theorem refl (previous : Option Char) (cs : List Char) : Rewritten previous cs cs := by
  induction cs generalizing previous with
  | nil => exact .nil previous
  | cons c cs ih => exact .keep c (ih _)

/-- Text in front that stays. -/
theorem append_left {cs₁ : List Char} (h : Rewritten (cs₁.getLast?.or previous) cs ds) :
    Rewritten previous (cs₁ ++ cs) (cs₁ ++ ds) := by
  induction cs₁ generalizing previous with
  | nil => simpa using h
  | cons c cs₁ ih =>
    refine .keep c (ih ?_)
    rw [List.getLast?_cons] at h
    cases hlast : cs₁.getLast? <;> simpa [hlast] using h

/-- Text behind that stays. -/
theorem append_right (h : Rewritten previous cs ds) (rest : List Char) :
    Rewritten previous (cs ++ rest) (ds ++ rest) := by
  induction h with
  | nil => exact refl _ rest
  | keep c _ ih => exact .keep c ih
  | length hprevious hsign hold hnew _ ih =>
    simp only [List.append_assoc]
    exact .length hprevious hsign hold hnew ih

/-- What is in front matters only if it is a name. -/
theorem of_previous (h : Rewritten previous cs ds) {previous' : Option Char}
    (hprevious' : previous'.any isNameChar = false) : Rewritten previous' cs ds := by
  cases h with
  | nil => exact .nil _
  | keep c h => exact .keep c h
  | length _ hsign hold hnew h => exact .length hprevious' hsign hold hnew h

/-- Behind a name the first character stays. -/
theorem of_name {c b : Char} (h : Rewritten (some b) (c :: cs) ds) (hb : isNameChar b = true) :
    ∃ ds', ds = c :: ds' ∧ Rewritten (some c) cs ds' := by
  generalize htext : c :: cs = text at h
  cases h with
  | nil => cases htext
  | keep d h =>
    cases htext
    exact ⟨_, rfl, h⟩
  | length hprevious => simp [hb] at hprevious

/-- A character that no length has stays. -/
theorem of_cons {c : Char} (h : Rewritten previous (c :: cs) ds) (hc : isPlain c = false)
    (hsign : c ≠ '+') : ∃ ds', ds = c :: ds' ∧ Rewritten (some c) cs ds' := by
  generalize htext : c :: cs = text at h
  cases h with
  | nil => cases htext
  | keep d h =>
    cases htext
    exact ⟨_, rfl, h⟩
  | length _ hsign' hold _ _ =>
    obtain ⟨d, old, rfl, hd⟩ := hold.exists_lead
    rcases hsign' with rfl | rfl
    · obtain ⟨rfl, -⟩ := List.cons.inj htext
      rw [isPlain_of_isLead hd] at hc
      cases hc
    · exact absurd (List.cons.inj htext).1 hsign

/-- Other characters come from the text, except those of lengths. -/
theorem mem_or_isPlain (h : Rewritten previous cs ds) {c : Char} (hc : c ∈ ds) :
    c ∈ cs ∨ isPlain c = true := by
  induction h with
  | nil => cases hc
  | keep d _ ih =>
    rcases List.mem_cons.mp hc with rfl | hc
    · exact .inl List.mem_cons_self
    · exact (ih hc).imp_left (List.mem_cons_of_mem d)
  | length _ _ _ hnew _ ih =>
    rcases List.mem_append.mp hc with hc | hc
    · exact .inr (hnew.plain c hc)
    · exact (ih hc).imp_left fun hc => List.mem_append_right _ (List.mem_append_right _ hc)

/-- **What is rewritten has digits**, before and after. -/
theorem eq_or_digit (h : Rewritten previous cs ds) :
    ds = cs ∨ (∃ c ∈ cs, c.isDigit = true) ∧ ∃ c ∈ ds, c.isDigit = true := by
  induction h with
  | nil => exact .inl rfl
  | keep d _ ih =>
    rcases ih with rfl | ⟨⟨c, hc, hdigit⟩, c', hc', hdigit'⟩
    · exact .inl rfl
    · exact .inr ⟨⟨c, List.mem_cons_of_mem d hc, hdigit⟩, c', List.mem_cons_of_mem d hc', hdigit'⟩
  | length _ _ hold hnew _ _ =>
    obtain ⟨c, hc, hdigit⟩ := hold.digit
    obtain ⟨c', hc', hdigit'⟩ := hnew.digit
    exact .inr ⟨⟨c, List.mem_append_right _ (List.mem_append_left _ hc), hdigit⟩, c',
      List.mem_append_left _ hc', hdigit'⟩

/-- Without a character of a length nothing is rewritten. -/
theorem eq_of_forall (h : Rewritten previous cs ds) (hcs : ∀ c ∈ cs, isPlain c = false) :
    ds = cs := by
  refine h.eq_or_digit.resolve_right ?_
  rintro ⟨⟨c, hc, hdigit⟩, -⟩
  have hplain := isPlain_of_isLead (isLead_of_isDigit hdigit)
  rw [hcs c hc] at hplain
  cases hplain

theorem eq_nil_iff (h : Rewritten previous cs ds) : ds = [] ↔ cs = [] := by
  cases h with
  | nil => rfl
  | keep => simp
  | length _ _ hold hnew => simp [hold.ne_nil, hnew.ne_nil]

/-- **Where a rewritten text differs from the first character on**, it starts with a length. -/
theorem head_cases (h : Rewritten previous cs ds) :
    ds.head? = cs.head? ∨
      (∃ c ∈ cs.head?, isPlain c = true ∨ c = '+') ∧ ∃ d ∈ ds.head?, isLead d = true := by
  cases h with
  | nil => exact .inl rfl
  | keep => exact .inl rfl
  | length _ hsign hold hnew =>
    obtain ⟨c, old, rfl, hc⟩ := hold.exists_lead
    obtain ⟨d, new, rfl, hd⟩ := hnew.exists_lead
    refine .inr ⟨?_, d, rfl, hd⟩
    rcases hsign with rfl | rfl
    · exact ⟨c, rfl, .inl (isPlain_of_isLead hc)⟩
    · exact ⟨'+', rfl, .inr rfl⟩

/-- A test of the first character that all characters of lengths fail. -/
theorem head?_eq_iff (h : Rewritten previous cs ds) {c : Char} (hc : isPlain c = false)
    (hsign : c ≠ '+') : ds.head? = some c ↔ cs.head? = some c := by
  rcases h.head_cases with hhead | ⟨⟨b, hb, hplain⟩, d, hd, hlead⟩
  · rw [hhead]
  · rw [Option.mem_def.mp hb, Option.mem_def.mp hd, Option.some_inj, Option.some_inj]
    refine ⟨?_, ?_⟩
    · rintro rfl
      rw [isPlain_of_isLead hlead] at hc
      cases hc
    · rintro rfl
      rcases hplain with hplain | rfl
      · rw [hplain] at hc
        cases hc
      · exact absurd rfl hsign

/-- **A plus sign goes** only in front of a length. -/
theorem of_plus (h : Rewritten previous ('+' :: cs) ds) (hhead : ds.head? ≠ some '+') :
    Rewritten none cs ds ∧ ∃ d ∈ ds.head?, isLead d = true := by
  generalize htext : '+' :: cs = text at h
  cases h with
  | nil => cases htext
  | keep c h =>
    cases htext
    exact absurd rfl hhead
  | length _ hsign hold hnew h =>
    obtain ⟨d, new, rfl, hd⟩ := hnew.exists_lead
    rcases hsign with rfl | rfl
    · obtain ⟨c, old, rfl, hc⟩ := hold.exists_lead
      obtain ⟨rfl, -⟩ := List.cons.inj htext
      cases hc
    · obtain ⟨-, rfl⟩ := List.cons.inj htext
      have hunsigned := @Rewritten.length none _ _ _ _ _ rfl (.inl rfl) hold hnew h
      exact ⟨hunsigned, d, rfl, hd⟩

/-- **The first character stays** unless a length starts with it. -/
theorem exists_of_cons {c : Char} (h : Rewritten previous (c :: cs) ds) :
    (∃ ds', ds = c :: ds' ∧ Rewritten (some c) cs ds') ∨
      (isPlain c = true ∨ c = '+') ∧ ∃ d run run' rest rest' previous',
        ds = d :: (run' ++ rest') ∧ cs = run ++ rest ∧ isLead d = true ∧
          (∀ a ∈ run, isPlain a = true) ∧ (∀ a ∈ run', isPlain a = true) ∧
            Rewritten previous' rest rest' := by
  generalize htext : c :: cs = text at h
  cases h with
  | nil => cases htext
  | keep d h =>
    cases htext
    exact .inl ⟨_, rfl, h⟩
  | @length _ _ old new rest rest' _ hsign hold hnew h =>
    obtain ⟨d, run', rfl, hd⟩ := hnew.exists_lead
    have hrun' : ∀ a ∈ run', isPlain a = true := fun a ha => hnew.plain a (List.mem_cons_of_mem d ha)
    refine .inr ?_
    rcases hsign with rfl | rfl
    · obtain ⟨e, run, rfl, he⟩ := hold.exists_lead
      obtain ⟨rfl, rfl⟩ := List.cons.inj htext
      exact ⟨.inl (isPlain_of_isLead he), d, run, run', rest, rest', _, rfl, rfl, hd,
        fun a ha => hold.plain a (List.mem_cons_of_mem _ ha), hrun', h⟩
    · obtain ⟨rfl, rfl⟩ := List.cons.inj htext
      exact ⟨.inr rfl, d, old, run', rest, rest', _, rfl, rfl, hd, hold.plain, hrun', h⟩

/-- **A rewritten text can be cut** where no length goes on. -/
theorem split {x : List Char} (h : Rewritten previous (x ++ cs) ds)
    (hcut : ∀ a ∈ cs.head?, isPlain a = true → ∀ b ∈ x.getLast?, isPlain b = false ∧ b ≠ '+') :
    ∃ x' cs' previous', ds = x' ++ cs' ∧ Rewritten previous x x' ∧ Rewritten previous' cs cs' := by
  generalize htext : x ++ cs = text at h
  induction h generalizing x with
  | nil previous =>
    obtain ⟨rfl, rfl⟩ := List.append_eq_nil_iff.mp htext
    exact ⟨[], [], previous, rfl, .nil _, .nil _⟩
  | @keep previous c text ds h ih =>
    cases x with
    | nil =>
      obtain rfl : cs = c :: text := htext
      exact ⟨[], _, previous, rfl, .nil _, .keep c h⟩
    | cons b x =>
      obtain ⟨rfl, hbehind⟩ := List.cons.inj htext
      obtain ⟨x', cs', previous', rfl, hx, hcs⟩ := ih (fun a ha hplain e he => by
        refine hcut a ha hplain e ?_
        rw [List.getLast?_cons, Option.mem_def.mp he]
        rfl) hbehind
      exact ⟨b :: x', cs', previous', rfl, .keep b hx, hcs⟩
  | @length previous sign old new text ds hprevious hsign hold hnew h ih =>
    rw [← List.append_assoc] at htext
    rcases List.append_eq_append_iff.mp htext with ⟨front, hfront, rfl⟩ | ⟨behind, rfl, rfl⟩
    · cases front with
      | nil =>
        obtain rfl : sign ++ old = x := by simpa using hfront
        refine ⟨new, ds, _, rfl, ?_, h⟩
        have hwhole := Rewritten.length hprevious hsign hold hnew (.nil old.getLast?)
        simpa using hwhole
      | cons a front =>
        rcases List.eq_nil_or_concat x with rfl | ⟨x, b, rfl⟩
        · refine ⟨[], _, previous, rfl, .nil _, ?_⟩
          have hwhole := Rewritten.length hprevious hsign hold hnew h
          rw [← List.append_assoc, hfront] at hwhole
          exact hwhole
        · -- Two characters of one length stand on both sides of the cut.
          rw [List.concat_eq_append, List.append_assoc] at hfront
          obtain ⟨hb, ha⟩ := hold.of_pair hsign hfront
          obtain ⟨hb₁, hb₂⟩ := hcut a rfl ha b (by simp)
          rcases hb with hb | hb
          · rw [hb] at hb₁
            cases hb₁
          · exact absurd hb hb₂
    · obtain ⟨x', cs', previous', rfl, hx, hcs⟩ := ih (fun a ha hplain e he => by
        refine hcut a ha hplain e ?_
        rw [List.getLast?_append, Option.mem_def.mp he]
        rfl) rfl
      refine ⟨new ++ x', cs', previous', by simp, ?_, hcs⟩
      rw [List.append_assoc]
      exact .length hprevious hsign hold hnew hx

/-- **A rewritten text can be cut at a character** that no length has, and the text as it was at the
same character. -/
theorem exists_of_append_cons {x' rest' : List Char} {c : Char}
    (h : Rewritten previous cs (x' ++ c :: rest')) (hc : isPlain c = false) :
    ∃ x rest, cs = x ++ c :: rest ∧ Rewritten (some c) rest rest' := by
  generalize htext : x' ++ c :: rest' = ds at h
  induction h generalizing x' with
  | nil => simp at htext
  | @keep previous d cs ds h ih =>
    cases x' with
    | nil =>
      obtain ⟨rfl, rfl⟩ := List.cons.inj htext
      exact ⟨[], cs, rfl, h⟩
    | cons e x' =>
      obtain ⟨rfl, htext'⟩ := List.cons.inj htext
      obtain ⟨x, rest, rfl, hrest⟩ := ih htext'
      exact ⟨e :: x, rest, rfl, hrest⟩
  | @length previous sign old new cs ds _ _ hold hnew h ih =>
    rcases List.append_eq_append_iff.mp htext with ⟨y, hy, hrest⟩ | ⟨y, rfl, hrest⟩
    · cases y with
      | nil =>
        obtain ⟨x, rest, rfl, hrest'⟩ := @ih [] hrest
        exact ⟨sign ++ (old ++ x), rest, by simp, hrest'⟩
      | cons e y =>
        obtain ⟨rfl, -⟩ := List.cons.inj hrest
        rw [hnew.plain c (by simp [hy])] at hc
        cases hc
    · obtain ⟨x, rest, rfl, hrest'⟩ := ih hrest.symm
      exact ⟨sign ++ (old ++ x), rest, by simp, hrest'⟩

/-- The last character stays, or it is one of a length. -/
theorem getLast?_cases (h : Rewritten previous cs ds) :
    ds.getLast? = cs.getLast? ∨ ∀ d ∈ ds.getLast?, isPlain d = true := by
  induction h with
  | nil => exact .inl rfl
  | @keep previous c cs ds h ih =>
    rw [List.getLast?_cons, List.getLast?_cons]
    rcases ih with hlast | hplain
    · exact .inl (by rw [hlast])
    · cases hlast : ds.getLast? with
      | none =>
        obtain rfl := List.getLast?_eq_none_iff.mp hlast
        rw [h.eq_nil_iff.mp rfl]
        exact .inl rfl
      | some d =>
        rw [hlast] at hplain
        exact .inr hplain
  | @length previous sign old new cs ds _ _ hold hnew h ih =>
    rw [List.getLast?_append, List.getLast?_append, List.getLast?_append]
    cases hlast : ds.getLast? with
    | none =>
      right
      intro d hd
      exact hnew.plain d (List.mem_of_getLast? hd)
    | some d =>
      rw [hlast] at ih
      rcases ih with hsame | hplain
      · exact .inl (by rw [← hsame]; rfl)
      · exact .inr hplain

/-- **Induction along a scan**: a backslash takes the next character along, and that is never part
of a length. -/
theorem escapes {motive : (previous : Option Char) → (cs ds : List Char) →
      Rewritten previous cs ds → Prop}
    (nil : ∀ previous, motive previous [] [] (.nil previous))
    (dangling : ∀ previous, motive previous ['\\'] ['\\'] (.keep '\\' (.nil _)))
    (escape : ∀ previous c {cs ds} (h : Rewritten (some c) cs ds), motive (some c) cs ds h →
      motive previous ('\\' :: c :: cs) ('\\' :: c :: ds) (.keep '\\' (.keep c h)))
    (keep : ∀ previous c {cs ds} (_ : c ≠ '\\') (h : Rewritten (some c) cs ds),
      motive (some c) cs ds h → motive previous (c :: cs) (c :: ds) (.keep c h))
    (length : ∀ previous {sign old new cs ds : List Char}
      (hprevious : previous.any isNameChar = false) (hsign : sign = [] ∨ sign = ['+'])
      (hold : IsLength old) (hnew : IsLength new) (h : Rewritten old.getLast? cs ds),
      motive old.getLast? cs ds h →
        motive previous (sign ++ (old ++ cs)) (new ++ ds) (.length hprevious hsign hold hnew h))
    {previous : Option Char} {cs ds : List Char} (h : Rewritten previous cs ds) :
    motive previous cs ds h := by
  generalize hsize : cs.length = size
  induction size using Nat.strong_induction_on generalizing previous cs ds with
  | _ size ih =>
    subst hsize
    cases h with
    | nil => exact nil previous
    | @keep _ c cs ds h =>
      by_cases hc : c = '\\'
      · subst hc
        cases cs with
        | nil =>
          obtain rfl := h.eq_nil_iff.mpr rfl
          exact dangling previous
        | cons d cs =>
          obtain ⟨ds, rfl, h'⟩ := h.of_name (by decide)
          exact escape previous d h' (ih cs.length (by simp) h' rfl)
      · exact keep previous c hc h (ih cs.length (by simp) h rfl)
    | @length _ _ old new cs ds hprevious hsign hold hnew h =>
      refine length previous hprevious hsign hold hnew h (ih cs.length ?_ h rfl)
      have hpos := List.length_pos_iff.mpr hold.ne_nil
      simp only [List.length_append]
      omega

end Rewritten

/-! ### How far tokens reach -/

namespace Token

variable {previous : Option Char} {cs ds : List Char}

section Plain

variable {run : List Char} (hrun : ∀ c ∈ run, isPlain c = true) (cs : List Char)

include hrun

theorem wordTail_plain_append : wordTail (run ++ cs) = wordTail cs + run.length :=
  wordTail_append_of_forall cs fun c hc => ⟨endsWord_of_plain (hrun c hc),
    ne_of_plain (hrun c hc) (by decide), ne_of_plain (hrun c hc) (by decide)⟩

end Plain

/-- The characters of a length, the sign included. -/
theorem forall_mem_length {sign old : List Char} (hsign : sign = [] ∨ sign = ['+'])
    (hold : IsLength old) {d : Char} (hd : isPlain d = false) (hplus : d ≠ '+') :
    ∀ c ∈ sign ++ old, c ≠ d := by
  intro c hc
  rcases List.mem_append.mp hc with hc | hc
  · rcases hsign with rfl | rfl
    · cases hc
    · obtain rfl := List.mem_singleton.mp hc
      exact hplus.symm
  · exact ne_of_plain (hold.plain c hc) hd

/-- **Only words and at-words end in a name.** -/
theorem Scans.getLast?_isNameChar {c : Char} {text ahead : List Char} {mode : Mode} {kind : Kind}
    (h : Scans c (text ++ ahead) mode kind text.length) (hword : kind ≠ .word)
    (hat : kind ≠ .atWord) : (c :: text).getLast?.any isNameChar = false := by
  have hspells := h.spells
  rw [List.take_left] at hspells
  generalize hn : text.length = n at h
  cases h with
  | address | atWord | word => contradiction
  | space =>
    rw [Option.any_eq_false]
    exact fun b hb => by simpa using isNameChar_of_isBlank (hspells b (List.mem_of_getLast? hb))
  | punctuation _ hkind =>
    obtain rfl := List.length_eq_zero_iff.mp hn
    exact isNameChar_of_punctuation? hkind
  | string _ hquote hreach =>
    rw [← hn, stringTail_append_iff le_rfl] at hreach
    rw [List.getLast?_cons, getLast?_of_stringTail hreach]
    rcases hquote with rfl | rfl <;> rfl
  | comment =>
    obtain ⟨inner, hinner⟩ := hspells
    have hmark : '/' :: '*' :: (inner ++ ['*', '/']) = '/' :: '*' :: (inner ++ ['*']) ++ ['/'] := by
      simp
    rw [hinner, hmark, List.getLast?_concat]
    rfl

/-- A stretch in front reaches to the end if what is behind it does. -/
theorem map_add_eq_some_iff {reach : Option Nat} {run cs : List Char} :
    reach.map (· + run.length) = some (run ++ cs).length ↔ reach = some cs.length := by
  rw [List.length_append, Nat.add_comm]
  cases reach <;> simp

/-- A rewritten text ends inside an escape if the text does. -/
theorem dangles_rewritten (h : Rewritten previous cs ds) : dangles ds = dangles cs := by
  induction h using Rewritten.escapes with
  | nil => rfl
  | dangling => rfl
  | escape _ c _ ih => exact ih
  | keep _ c hc _ ih => rw [dangles_cons_of_ne _ hc, dangles_cons_of_ne _ hc, ih]
  | length _ _ hsign hold hnew _ ih =>
    rw [← List.append_assoc, dangles_append_of_forall _
      (forall_mem_length hsign hold (by decide) (by decide)), dangles_append_of_forall _
      (fun c hc => ne_of_plain (hnew.plain c hc) (by decide)), ih]

/-- **A rewritten word** is a word. -/
theorem wordTail_rewritten (h : Rewritten previous cs ds) (hreach : wordTail cs = cs.length) :
    wordTail ds = ds.length := by
  induction h using Rewritten.escapes with
  | nil => rfl
  | dangling => rfl
  | escape _ c _ ih => simpa [wordTail_escape] using ih (by simpa [wordTail_escape] using hreach)
  | @keep _ c cs ds hc h ih =>
    rw [wordTail_cons_of_ne _ hc] at hreach ⊢
    split at hreach
    · cases hreach
    · next hgoes =>
      rw [← h.head?_eq_iff (by decide) (by decide)] at hgoes
      rw [if_neg hgoes, List.length_cons, ih (by simpa using hreach)]
  | @length _ sign old new cs ds _ hsign hold hnew _ ih =>
    rcases hsign with rfl | rfl
    · rw [List.nil_append, wordTail_plain_append hold.plain, List.length_append] at hreach
      rw [wordTail_plain_append hnew.plain, ih (by omega), List.length_append, Nat.add_comm]
    · rw [List.singleton_append, wordTail_cons_of_ne _ (by decide)] at hreach
      simp [endsWord] at hreach

/-- **A rewritten string** is closed by the same quote. -/
theorem stringTail_rewritten {quote : Char} (hquote : isPlain quote = false) (hplus : quote ≠ '+')
    (h : Rewritten previous cs ds) (hreach : stringTail quote cs = some cs.length) :
    stringTail quote ds = some ds.length := by
  induction h using Rewritten.escapes with
  | nil => cases hreach
  | dangling => cases hreach
  | escape _ c _ ih =>
    rw [stringTail_escape] at hreach ⊢
    rw [ih (by simpa using hreach)]
    rfl
  | @keep _ c cs ds hc h ih =>
    rw [stringTail_cons_of_ne _ hc] at hreach ⊢
    split at hreach
    · next hclose =>
      obtain rfl : cs = [] := by simpa using hreach
      rw [if_pos hclose, h.eq_nil_iff.mpr rfl]
      rfl
    · next hgoes =>
      rw [if_neg hgoes, ih (by simpa using hreach)]
      rfl
  | @length _ sign old new cs ds _ hsign hold hnew _ ih =>
    rw [← List.append_assoc, stringTail_append_of_forall _ fun c hc =>
      ⟨forall_mem_length hsign hold (by decide) (by decide) c hc,
        forall_mem_length hsign hold hquote hplus c hc⟩, map_add_eq_some_iff] at hreach
    rw [stringTail_append_of_forall _ fun c hc =>
      ⟨ne_of_plain (hnew.plain c hc) (by decide), ne_of_plain (hnew.plain c hc) hquote⟩,
      map_add_eq_some_iff]
    exact ih hreach

/-- **A rewritten address** is closed by the same parenthesis. -/
theorem addressTail_rewritten (h : Rewritten previous cs ds)
    (hreach : addressTail (cs ++ [')']) = some cs.length) :
    addressTail (ds ++ [')']) = some ds.length := by
  induction h using Rewritten.escapes with
  | nil => rfl
  | dangling => cases hreach
  | escape _ c _ ih =>
    rw [List.cons_append, List.cons_append, addressTail_escape] at hreach ⊢
    rw [ih (by simpa using hreach)]
    rfl
  | @keep _ c cs ds hc h ih =>
    rw [List.cons_append, addressTail_cons_of_ne _ hc] at hreach ⊢
    split at hreach
    · cases hreach
    · next hgoes =>
      rw [if_neg hgoes, ih (by simpa using hreach)]
      rfl
  | @length _ sign old new cs ds _ hsign hold hnew _ ih =>
    rw [← List.append_assoc, List.append_assoc (sign ++ old), addressTail_append_of_forall _
      fun c hc => ⟨forall_mem_length hsign hold (by decide) (by decide) c hc,
        forall_mem_length hsign hold (by decide) (by decide) c hc⟩, map_add_eq_some_iff] at hreach
    rw [List.append_assoc, addressTail_append_of_forall _ fun c hc =>
      ⟨ne_of_plain (hnew.plain c hc) (by decide), ne_of_plain (hnew.plain c hc) (by decide)⟩,
      map_add_eq_some_iff]
    exact ih hreach

/-- **A rewritten comment** is closed by the same mark. -/
theorem commentTail_rewritten (h : Rewritten previous cs ds)
    (hreach : commentTail cs = some cs.length) : commentTail ds = some ds.length := by
  induction h with
  | nil => cases hreach
  | @keep previous c cs ds h ih =>
    have hslash := h.head?_eq_iff (c := '/') (by decide) (by decide)
    rw [commentTail_cons] at hreach ⊢
    simp only [hslash]
    split at hreach
    · next hclose =>
      obtain ⟨cs, rfl⟩ := List.head?_eq_some_iff.mp hclose.2
      obtain rfl : cs = [] := by simpa using hreach
      rw [if_pos hclose, h.eq_of_forall (List.forall_mem_singleton.mpr (by decide))]
      rfl
    · next hgoes =>
      rw [if_neg hgoes, ih (by simpa using hreach)]
      rfl
  | @length previous sign old new cs ds _ hsign hold hnew _ ih =>
    rw [← List.append_assoc, commentTail_append_of_forall _
      (forall_mem_length hsign hold (by decide) (by decide)), map_add_eq_some_iff] at hreach
    rw [commentTail_append_of_forall _ fun c hc => ne_of_plain (hnew.plain c hc) (by decide),
      map_add_eq_some_iff]
    exact ih hreach

/-- A rewritten word, the first character apart. -/
theorem scanWord_rewritten {c d : Char} (hr : Rewritten previous (c :: cs) (d :: ds))
    (hreach : scanWord c cs = cs.length) : scanWord d ds = ds.length := by
  rcases hr.exists_of_cons with ⟨ds', hds, h⟩ | ⟨hc, d', run, run', rest, rest', _, hds, rfl, hd, hrun,
    hrun', h⟩
  · obtain ⟨rfl, rfl⟩ := List.cons.inj hds
    by_cases hescape : d = '\\'
    · subst hescape
      cases cs with
      | nil =>
        obtain rfl := h.eq_nil_iff.mpr rfl
        rfl
      | cons e cs =>
        obtain ⟨ds, rfl, h'⟩ := h.of_name (by decide)
        have htail : wordTail cs = cs.length := by simpa [scanWord] using hreach
        simp [scanWord, wordTail_rewritten h' htail]
    · rw [scanWord_of_ne hescape] at hreach ⊢
      exact wordTail_rewritten h hreach
  · obtain ⟨rfl, rfl⟩ := List.cons.inj hds
    have hescape : c ≠ '\\' := by
      rcases hc with hc | rfl
      · exact ne_of_plain hc (by decide)
      · decide
    rw [scanWord_of_ne hescape, wordTail_plain_append hrun, List.length_append] at hreach
    rw [scanWord_of_ne (ne_of_plain (isPlain_of_isLead hd) (by decide)), wordTail_plain_append hrun',
      wordTail_rewritten h (by omega), List.length_append, Nat.add_comm]

/-- A rewritten address, the first character apart. -/
theorem scanAddress_rewritten {c d : Char} (hr : Rewritten previous (c :: cs) (d :: ds))
    (hreach : scanAddress c (cs ++ [')']) = some cs.length) :
    scanAddress d (ds ++ [')']) = some ds.length := by
  rcases hr.exists_of_cons with ⟨ds', hds, h⟩ | ⟨hc, d', run, run', rest, rest', _, hds, rfl, hd, hrun,
    hrun', h⟩
  · obtain ⟨rfl, rfl⟩ := List.cons.inj hds
    by_cases hescape : d = '\\'
    · subst hescape
      cases cs with
      | nil => cases hreach
      | cons e cs =>
        obtain ⟨ds, rfl, h'⟩ := h.of_name (by decide)
        have htail : addressTail (cs ++ [')']) = some cs.length := by simpa [scanAddress] using hreach
        simp [scanAddress, addressTail_rewritten h' htail]
    · rw [scanAddress_of_ne hescape] at hreach ⊢
      exact addressTail_rewritten h hreach
  · obtain ⟨rfl, rfl⟩ := List.cons.inj hds
    have hescape : c ≠ '\\' := by
      rcases hc with hc | rfl
      · exact ne_of_plain hc (by decide)
      · decide
    have hpass {run : List Char} (hrun : ∀ a ∈ run, isPlain a = true) :
        ∀ a ∈ run, a ≠ '\\' ∧ a ≠ ')' := fun a ha =>
      ⟨ne_of_plain (hrun a ha) (by decide), ne_of_plain (hrun a ha) (by decide)⟩
    rw [scanAddress_of_ne hescape, List.append_assoc, addressTail_append_of_forall _ (hpass hrun),
      map_add_eq_some_iff] at hreach
    rw [scanAddress_of_ne (ne_of_plain (isPlain_of_isLead hd) (by decide)), List.append_assoc,
      addressTail_append_of_forall _ (hpass hrun'), map_add_eq_some_iff]
    exact addressTail_rewritten h hreach

/-- A rewritten word starts like a word. -/
theorem StartsWord.rewritten {c d : Char} {ahead : List Char}
    (h : StartsWord c (cs ++ ahead)) (hr : Rewritten previous (c :: cs) (d :: ds)) :
    StartsWord d (ds ++ ahead) := by
  rcases hr.exists_of_cons with ⟨ds', hds, hr⟩ | ⟨-, d', _, _, _, _, _, hds, -, hd, -⟩
  · obtain ⟨rfl, rfl⟩ := List.cons.inj hds
    obtain ⟨hblank, hkind, hsingle, hdouble, hat, hcomment⟩ := h
    refine ⟨hblank, hkind, hsingle, hdouble, hat, ?_⟩
    rwa [(hr.append_right ahead).head?_eq_iff (by decide) (by decide)]
  · obtain ⟨rfl, -⟩ := List.cons.inj hds
    exact startsWord_of_plain (isPlain_of_isLead hd) _

/-- **A token of a rewritten text** is a token of the same kind. -/
theorem Scans.rewritten {c : Char} {text ahead x : List Char} {mode : Mode} {kind : Kind}
    (h : Scans c (text ++ ahead) mode kind text.length) (hr : Rewritten previous (c :: text) x) :
    ∃ d ds, x = d :: ds ∧ Scans d (ds ++ ahead) mode kind ds.length := by
  obtain ⟨d, ds, rfl⟩ := List.exists_cons_of_ne_nil
    (mt hr.eq_nil_iff.mp (List.cons_ne_nil c text))
  refine ⟨d, ds, rfl, ?_⟩
  generalize hn : text.length = n at h
  cases h with
  | address hreach =>
    rw [← hn, scanAddress_append_eq_length_iff] at hreach
    exact .address (scanAddress_append_eq_length_iff.mpr
      ⟨scanAddress_rewritten hr hreach.1, hreach.2⟩)
  | space hmode hblank =>
    have hall : ∀ e ∈ c :: text, isBlank e = true :=
      List.forall_mem_cons.mpr ⟨hblank, (length_takeWhile_append_iff.mp hn.symm).1⟩
    obtain ⟨rfl, rfl⟩ := List.cons.inj (hr.eq_of_forall fun e he => isPlain_of_isBlank (hall e he))
    rw [hn]
    exact .space hmode hblank
  | punctuation hmode hkind =>
    obtain rfl := List.length_eq_zero_iff.mp hn
    obtain ⟨rfl, rfl⟩ := List.cons.inj (hr.eq_of_forall
      (List.forall_mem_singleton.mpr (isPlain_of_punctuation? hkind)))
    exact .punctuation hmode hkind
  | string hmode hquote hreach =>
    have hplain : isPlain c = false ∧ c ≠ '+' := by
      rcases hquote with rfl | rfl <;> decide
    obtain ⟨ds', hds, hr'⟩ := hr.of_cons hplain.1 hplain.2
    obtain ⟨rfl, rfl⟩ := List.cons.inj hds
    rw [← hn, stringTail_append_iff le_rfl] at hreach
    exact .string hmode hquote ((stringTail_append_iff le_rfl).mpr
      (stringTail_rewritten hplain.1 hplain.2 hr' hreach))
  | atWord hmode hat =>
    obtain ⟨hall, hahead⟩ := length_takeWhile_append_iff.mp hn.symm
    obtain ⟨ds', hds, hr'⟩ := hr.of_cons (by rw [hat]; decide) (by rw [hat]; decide)
    obtain ⟨rfl, rfl⟩ := List.cons.inj hds
    have hreach : atWordTail (ds ++ ahead) = ds.length := by
      refine length_takeWhile_append_iff.mpr ⟨fun e he => ?_, hahead⟩
      rcases hr'.mem_or_isPlain he with he | he
      · exact hall e he
      · rw [endsAtWord_of_plain he]
        rfl
    rw [← hreach]
    exact .atWord hmode hat
  | @comment _ rest n hmode hslash hstar hreach =>
    obtain ⟨inner, rfl⟩ : ∃ inner, text = '*' :: inner := by
      cases text with
      | nil => simp at hn
      | cons e inner => exact ⟨inner, congrArg (· :: inner) (List.cons.inj hstar).1⟩
    obtain rfl : inner ++ ahead = rest := by simpa using hstar
    obtain rfl : inner.length = n := by simpa using hn
    rw [commentTail_append_iff le_rfl] at hreach
    obtain ⟨ds', hds, hr'⟩ := hr.of_cons (by rw [hslash]; decide) (by rw [hslash]; decide)
    obtain ⟨rfl, rfl⟩ := List.cons.inj hds
    obtain ⟨inner', rfl, hr''⟩ := hr'.of_cons (by decide) (by decide)
    exact .comment hmode hslash rfl ((commentTail_append_iff le_rfl).mpr
      (commentTail_rewritten hr'' hreach))
  | word hmode hstart =>
    obtain ⟨hreach, hends, hdangles⟩ := scanWord_append_eq_length_iff.mp hn.symm
    have hreach' : scanWord d (ds ++ ahead) = ds.length := by
      refine scanWord_append_eq_length_iff.mpr ⟨scanWord_rewritten hr hreach, hends, ?_⟩
      rwa [dangles_rewritten hr]
    rw [← hreach']
    exact .word hmode (hstart.rewritten hr)

/-! ### What lies between tokens -/

/-- **No length goes on behind a token**, except behind its own sign. -/
theorem Scans.ends_length {c a b : Char} {text ahead : List Char} {mode : Mode} {kind : Kind}
    (h : Scans c (text ++ ahead) mode kind text.length) (hplus : mode ≠ .address → c ≠ '+')
    (ha : a ∈ ahead.head?) (hplain : isPlain a = true) (hb : b ∈ (c :: text).getLast?) :
    isPlain b = false ∧ b ≠ '+' := by
  have hmem := List.mem_of_getLast? hb
  have hfollows := h.follows
  generalize hn : text.length = n at h
  cases h with
  | address =>
    obtain rfl : a = ')' := Option.some.inj (ha.symm.trans hfollows)
    cases hplain
  | space hmode hblank =>
    have hall : ∀ e ∈ c :: text, isBlank e = true :=
      List.forall_mem_cons.mpr ⟨hblank, (length_takeWhile_append_iff.mp hn.symm).1⟩
    refine ⟨isPlain_of_isBlank (hall b hmem), ?_⟩
    rintro rfl
    cases hall '+' hmem
  | punctuation hmode hkind =>
    obtain rfl := List.length_eq_zero_iff.mp hn
    obtain rfl := List.mem_singleton.mp hmem
    exact ⟨isPlain_of_punctuation? hkind, hplus hmode⟩
  | string hmode hquote hreach =>
    rw [← hn, stringTail_append_iff le_rfl] at hreach
    have hlast := getLast?_of_stringTail hreach
    cases text with
    | nil => cases hlast
    | cons e text =>
      rw [List.getLast?_cons_cons, hlast] at hb
      obtain rfl : c = b := Option.some.inj hb
      rcases hquote with rfl | rfl <;> decide
  | atWord hmode =>
    have hends := (follows_atWord hmode).mp hfollows a ha
    rw [endsAtWord_of_plain hplain] at hends
    cases hends
  | @comment _ rest m hm hslash hstar hreach =>
    have hscan : Scans c (text ++ ahead) mode .comment (m + 1) := .comment hm hslash hstar hreach
    rw [← hn] at hscan
    obtain ⟨inner, hinner, -⟩ := hscan.exists_inner
    have hmark : '/' :: '*' :: (inner ++ ['*', '/']) = '/' :: '*' :: (inner ++ ['*']) ++ ['/'] := by
      simp
    rw [hinner, hmark, List.getLast?_concat] at hb
    obtain rfl : '/' = b := Option.some.inj hb
    decide
  | word hmode =>
    rcases ((follows_word hmode).mp hfollows).1 a ha with hends | ⟨rfl, -⟩
    · rw [endsWord_of_plain hplain] at hends
      cases hends
    · cases hplain

/-- Where the first character stays, the text looks the same. -/
theorem sameStart_rewritten (h : Rewritten previous cs ds) (hhead : ds.head? = cs.head?) :
    SameStart cs ds := by
  refine ⟨hhead.symm, fun hslash => ?_⟩
  obtain ⟨cs, rfl⟩ := List.head?_eq_some_iff.mp hslash
  obtain ⟨ds, rfl, h'⟩ := h.of_cons (by decide) (by decide)
  exact (h'.head?_eq_iff (by decide) (by decide)).symm

/-- **What ended a token ends it** in front of a rewritten text, unless a plus sign ended a word. -/
theorem Follows.rewritten {mode : Mode} {kind : Kind} {text : List Char}
    (h : Follows mode kind text cs) (hr : Rewritten previous cs ds)
    (hplus : kind = .word → mode ≠ .address → cs.head? = some '+' → ds.head? = some '+') :
    Follows mode kind text ds := by
  rcases hr.head_cases with hhead | ⟨⟨c, hc, hplain⟩, d, hd, hlead⟩
  · exact (sameStart_rewritten hr hhead).follows h
  · have hd' := isPlain_of_isLead hlead
    by_cases hmode : mode = .address
    · subst hmode
      obtain rfl : c = ')' := Option.some.inj (hc.symm.trans h)
      rcases hplain with hplain | hplain <;> cases hplain
    · cases kind with
      | space =>
        rw [follows_space hmode, Option.mem_def.mp hd]
        simpa using isBlank_of_plain hd'
      | word =>
        have hends := ((follows_word hmode).mp h).1 c hc
        rcases hplain with hplain | rfl
        · rcases hends with hends | ⟨rfl, -⟩
          · rw [endsWord_of_plain hplain] at hends
            cases hends
          · cases hplain
        · obtain rfl := Option.some.inj (hd.symm.trans (hplus rfl hmode hc))
          cases hlead
      | atWord =>
        have hends := (follows_atWord hmode).mp h c hc
        rcases hplain with hplain | rfl
        · rw [endsAtWord_of_plain hplain] at hends
          cases hends
        · cases hends
      | _ => cases mode <;> first | contradiction | trivial

/-- **Behind a token of a rewritten text** the mode is the same. -/
theorem Mode.after_rewritten (mode : Mode) (kind : Kind) {text text' : List Char}
    {previous' : Option Char} (htext : Rewritten previous text text')
    (hr : Rewritten previous' cs ds) : mode.after kind text cs = mode.after kind text' ds := by
  have hstarts : cs.head?.any startsAddress = ds.head?.any startsAddress := by
    rcases hr.head_cases with hhead | ⟨⟨c, hc, hplain⟩, d, hd, hlead⟩
    · rw [hhead]
    · have hc' : startsAddress c = true := by
        rcases hplain with hplain | rfl
        · exact startsAddress_of_plain hplain
        · rfl
      rw [Option.mem_def.mp hc, Option.mem_def.mp hd, Option.any_some, Option.any_some, hc',
        startsAddress_of_plain (isPlain_of_isLead hlead)]
  have hurl : Text.eqIgnoringCase text ['u', 'r', 'l'] =
      Text.eqIgnoringCase text' ['u', 'r', 'l'] := by
    rcases htext.eq_or_digit with rfl | ⟨⟨c, hc, hdigit⟩, d, hd, hdigit'⟩
    · rfl
    · rw [eqIgnoringCase_of_isLead hc (isLead_of_isDigit hdigit) isLead_url,
        eqIgnoringCase_of_isLead hd (isLead_of_isDigit hdigit') isLead_url]
  rw [Mode.after, Mode.after, hstarts, hurl]

/-- A word that a length is part of is not `url`. -/
theorem Mode.after_of_isLead (mode : Mode) {text : List Char} {d : Char} (hmem : d ∈ text)
    (hd : isLead d = true) (rest : List Char) : mode.after .word text rest = .plain := by
  simp [Mode.after, eqIgnoringCase_of_isLead hmem hd isLead_url]

end Token

/-! ### Lexemes of a rewritten text -/

/-- **Some words and combinators have become part of the word behind them.** -/
inductive Token.Kind.Merged : List Kind → List Kind → Prop
  | nil : Merged [] []
  | keep (kind : Kind) {ks ks' : List Kind} (h : Merged ks ks') : Merged (kind :: ks) (kind :: ks')
  | merge {kind : Kind} {ks ks' : List Kind} (hkind : kind = .word ∨ kind = .combinator)
      (h : Merged ks (.word :: ks')) : Merged (kind :: ks) (.word :: ks')

namespace Token.Kind.Merged

variable {ks ks' : List Kind}

/-- Words and combinators open and close nothing. -/
theorem depth?_eq (h : Merged ks ks') (depth : Nat) :
    Statement.depth? depth ks' = Statement.depth? depth ks := by
  induction h generalizing depth with
  | nil => rfl
  | keep kind _ ih =>
    rw [Statement.depth?, Statement.depth?]
    split
    · exact ih _
    · rfl
  | merge hkind _ ih =>
    rw [ih]
    rcases hkind with rfl | rfl <;> rfl

/-- The last kind stays. -/
theorem getLast?_eq (h : Merged ks ks') : ks'.getLast? = ks.getLast? := by
  induction h with
  | nil => rfl
  | keep kind _ ih => rw [List.getLast?_cons, List.getLast?_cons, ih]
  | @merge kind ks ks' _ _ ih =>
    rw [ih, List.getLast?_cons, ← ih, List.getLast?_cons]
    rfl

/-- What starts with no trivia still does. -/
theorem head? (h : Merged ks ks') (hks : ∀ k ∈ ks.head?, k.isTrivia = false) :
    ∀ k ∈ ks'.head?, k.isTrivia = false := by
  cases h with
  | nil => exact hks
  | keep => exact hks
  | merge =>
    rintro k ⟨⟩
    rfl

end Token.Kind.Merged

namespace Lexes

variable {mode mode' last : Mode} {previous : Option Char} {cs ds rest : List Char}
  {ls : List Lexeme}

/-- A text that starts like a length starts with a word. -/
theorem exists_word {d : Char} (h : Lexes mode (d :: ds) rest ls last) (hmode : mode ≠ .address)
    (hd : isPlain d = true) :
    ∃ y ds' ls', ls = ⟨.word, d :: y⟩ :: ls' ∧ ds = y ++ ds' ∧
      Scans d (y ++ (ds' ++ rest)) mode .word y.length ∧
        Lexes (mode.after .word (d :: y) (ds' ++ rest)) ds' rest ls' last := by
  generalize htext : d :: ds = text at h
  cases h with
  | nil => cases htext
  | @cons _ _ kind c y ds' _ ls' hscan htail =>
    obtain ⟨rfl, rfl⟩ := List.cons.inj htext
    obtain ⟨rfl, -⟩ := hscan.unique (.word hmode (startsWord_of_plain hd _))
    exact ⟨y, ds', ls', rfl, rfl, hscan, htail⟩

/-- **The token in front of a rewritten text**: the text is cut behind it, or the token is the sign
of a length and goes. -/
theorem split_or_plus {c : Char} {text : List Char} {kind : Kind}
    (hscan : Scans c (text ++ (cs ++ rest)) mode kind text.length)
    (hr : Rewritten previous (c :: text ++ cs) ds) :
    (∃ x ds' previous', ds = x ++ ds' ∧ Rewritten previous (c :: text) x ∧
        Rewritten previous' cs ds') ∨
      mode ≠ .address ∧ kind = .combinator ∧ text = [] ∧ Rewritten none cs ds ∧
        ∃ d ∈ ds.head?, isLead d = true := by
  by_cases hplus : mode ≠ .address ∧ c = '+'
  · obtain ⟨hmode, rfl⟩ := hplus
    obtain ⟨rfl, hlength⟩ := hscan.unique (.punctuation hmode rfl)
    obtain rfl := List.length_eq_zero_iff.mp hlength
    by_cases hhead : ds.head? = some '+'
    · left
      obtain ⟨ds, rfl⟩ := List.head?_eq_some_iff.mp hhead
      rcases hr.exists_of_cons with ⟨ds', hds, hr'⟩ | ⟨-, d, _, _, _, _, _, hds, -, hd, -⟩
      · obtain ⟨-, rfl⟩ := List.cons.inj hds
        exact ⟨['+'], ds, some '+', rfl, .refl _ _, hr'⟩
      · obtain ⟨rfl, -⟩ := List.cons.inj hds
        cases hd
    · exact .inr ⟨hmode, rfl, rfl, hr.of_plus hhead⟩
  · left
    refine hr.split fun a ha hplain b hb => ?_
    refine hscan.ends_length (fun hmode hc => hplus ⟨hmode, hc⟩) ?_ hplain hb
    rw [List.head?_append, Option.mem_def.mp ha]
    rfl

/-- **A rewritten text is read alike**: some words and combinators have become part of the word
behind them, and the mode behind the text is the same. -/
theorem rewritten (h : Lexes mode cs rest ls last) (hr : Rewritten previous cs ds) :
    ∃ ls', Lexes mode ds rest ls' last ∧
      Kind.Merged (ls.map Lexeme.kind) (ls'.map Lexeme.kind) := by
  induction h generalizing previous ds with
  | nil =>
    obtain rfl := hr.eq_nil_iff.mpr rfl
    exact ⟨[], .nil _ _, .nil⟩
  | @cons mode last kind c text cs rest ls hscan htail ih =>
    rcases split_or_plus hscan hr with
      ⟨x, ds, previous', rfl, hx, hr'⟩ | ⟨hmode, rfl, rfl, hr', d, hd, hlead⟩
    · obtain ⟨ls', hls', hmerged⟩ := ih hr'
      obtain ⟨c', text', rfl, hscan'⟩ := hscan.rewritten hx
      have hbehind := hr'.append_right rest
      have hafter := mode.after_rewritten kind hx hbehind
      by_cases hjoin : kind = .word ∧ mode ≠ .address ∧ (cs ++ rest).head? = some '+' ∧
          (ds ++ rest).head? ≠ some '+'
      · -- A sign went, so the word grows together with the length behind it.
        obtain ⟨rfl, hmode, hplus, hgone⟩ := hjoin
        obtain ⟨cs, rfl⟩ : ∃ cs', cs = '+' :: cs' := by
          cases cs with
          | nil =>
            obtain rfl := hr'.eq_nil_iff.mpr rfl
            exact absurd hplus hgone
          | cons a cs => exact ⟨cs, congrArg (· :: cs) (Option.some.inj hplus)⟩
        obtain ⟨-, d, hd, hlead⟩ := hr'.of_plus fun hhead => hgone (by
          rw [List.head?_append, hhead]
          rfl)
        obtain ⟨ds, rfl⟩ := List.head?_eq_some_iff.mp hd
        have hmode' : mode.after .word (c :: text) ('+' :: cs ++ rest) ≠ .address :=
          mode.after_ne_address_of_word _ _
        obtain ⟨y, ds, ls', rfl, rfl, hword, hls''⟩ := hls'.exists_word hmode' (isPlain_of_isLead hlead)
        have hdangles : Token.dangles (c' :: text') = false := by
          rw [Token.dangles_rewritten hx]
          by_contra hescape
          have hnil := ((Token.follows_word hmode).mp hscan.follows).2 (by simpa using hescape)
          cases hnil
        have hplain := isPlain_of_isLead hlead
        have hjoined := hscan'.join hmode hdangles hword hmode' (not_wordEnds_of_plain hplain _)
          fun h => ne_of_plain hplain (by decide) h.2
        have hjoinedTail : Lexes (mode.after .word (c' :: (text' ++ d :: y)) (ds ++ rest)) ds rest
            ls' last := by
          rw [Mode.after_of_isLead _ List.mem_cons_self hlead] at hls''
          rwa [Mode.after_of_isLead _ (by simp) hlead]
        refine ⟨⟨.word, c' :: (text' ++ d :: y)⟩ :: ls', ?_, .merge (.inl rfl) hmerged⟩
        simpa using hjoinedTail.cons hjoined
      · have hfollows := hscan'.follows.rewritten hbehind fun hword hmode hplus => by
          by_contra hhead
          exact hjoin ⟨hword, hmode, hplus, hhead⟩
        refine ⟨⟨kind, c' :: text'⟩ :: ls', .cons (hscan'.change hfollows) ?_, .keep kind hmerged⟩
        rwa [← hafter]
    · -- The sign itself goes.
      obtain ⟨ls', hls', hmerged⟩ := ih hr'
      obtain ⟨ds, rfl⟩ := List.head?_eq_some_iff.mp hd
      have hplain : mode.after .combinator [c] (cs ++ rest) = .plain :=
        mode.after_eq_plain _ _ (by decide) (by decide)
      rw [hplain] at hls'
      obtain ⟨y, ds, ls', rfl, rfl, hword, hls''⟩ :=
        hls'.exists_word (by decide) (isPlain_of_isLead hlead)
      rw [Mode.after_of_isLead _ List.mem_cons_self hlead] at hls''
      refine ⟨_, .cons (hword.of_mode (by decide) hmode) ?_, .merge (.inr rfl) hmerged⟩
      rwa [Mode.after_of_isLead _ List.mem_cons_self hlead]

/-- **A text in front of a rewritten text** is read alike, unless it ends in a word. -/
theorem rewritten_behind {rest' : List Char} (h : Lexes mode cs rest ls last)
    (hr : Rewritten (cs.getLast?.or previous) rest rest')
    (hword : ∀ l ∈ ls.getLast?, l.kind ≠ .word) : Lexes mode cs rest' ls last := by
  induction h generalizing previous with
  | nil => exact .nil _ _
  | @cons mode last kind c text cs rest ls hscan htail ih =>
    have hr' : Rewritten (cs.getLast?.or ((c :: text).getLast?.or previous)) rest rest' := by
      rwa [← Option.or_assoc, ← List.getLast?_append]
    have hbehind := hr'.append_left
    have hfollows := hscan.follows.rewritten hbehind fun hkind hmode hplus => by
      cases htail with
      | nil => exact absurd hkind (hword _ rfl)
      | cons => exact hplus
    refine .cons (hscan.change hfollows) ?_
    rw [← mode.after_rewritten kind (.refl none (c :: text)) hbehind]
    refine ih hr' fun l hl => ?_
    cases ls with
    | nil => cases hl
    | cons l' ls => exact hword l (by simpa using hl)

end Lexes

end LosslessCss
