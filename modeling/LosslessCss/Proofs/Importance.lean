import LosslessCss.Proofs.Compaction

/-!
# Compaction and the mark `!important`

A value is compacted without its mark, and the mark is written behind it as `!important`.  So two
things have to be shown: the word takes the place of the mark in the lexemes of the value
(`Plainly.exists_marked`), and compaction brings no mark about that the value does not have
(`exists_splitImportant_of_compact`).  The second one needs a value without comments: compaction
leaves them out, and `!/**/important` is no mark.

## Main Statements

* `splitImportant_of_mark` : the mark that a value has
* `exists_splitImportant_of_compact`
* `Plainly.exists_marked`
-/

namespace LosslessCss

open Token (Scans WordEnds Follows StartsWord dangles wordTail scanWord isBlank endsWord)
open Value.Compact (Tightness)

/-! ### Cutting and joining stretches -/

namespace Plainly

variable {behind behind' text cs ds : List Char} {ls ls' : List Lexeme}

theorem concat_eq (h : Plainly behind text ls) : Lexeme.concat ls = text := h.lexes.concat_eq

theorem kind_ne_atWord (h : Plainly behind text ls) : ∀ l ∈ ls, l.kind ≠ .atWord := by
  induction h with
  | nil => simp
  | cons _ hat _ _ ih => exact List.forall_mem_cons.mpr ⟨hat, ih⟩

/-- Stretches compose. -/
theorem append (h : Plainly (ds ++ behind) cs ls) (h' : Plainly behind ds ls') :
    Plainly behind (cs ++ ds) (ls ++ ls') := by
  induction h with
  | nil => exact h'
  | cons hscan hat hurl _ ih =>
    rw [List.append_assoc]
    exact .cons (by simpa using hscan) hat hurl ih

/-- Stretches can be cut. -/
theorem exists_of_append (h : Plainly behind text (ls ++ ls')) :
    ∃ cs ds, text = cs ++ ds ∧ Plainly (ds ++ behind) cs ls ∧ Plainly behind ds ls' := by
  induction ls generalizing text with
  | nil => exact ⟨[], text, rfl, .nil, h⟩
  | cons l ls ih =>
    cases h with
    | cons hscan hat hurl htail =>
      obtain ⟨cs, ds, rfl, hcs, hds⟩ := ih htail
      exact ⟨_, ds, (List.append_assoc _ _ _).symm,
        .cons (by simpa using hscan) hat hurl hcs, hds⟩

/-- **A stretch is read again** in front of another text, if its last lexeme is. -/
theorem change (h : Plainly behind text ls) (hbehind : behind.head? ≠ some '*')
    (hbehind' : behind'.head? ≠ some '*')
    (hlast : ∀ l ∈ ls.getLast?, Follows .plain l.kind l.text behind') :
    Plainly behind' text ls := by
  induction h with
  | nil => exact .nil
  | @cons kind c text cs ls hscan hat hurl htail ih =>
    have hfollows : Follows .plain kind (c :: text) (cs ++ behind') := by
      cases htail with
      | nil => exact hlast _ rfl
      | cons => exact (SameStart.of_append (by simp) hbehind hbehind').follows hscan.follows
    refine .cons (hscan.change hfollows) hat hurl (ih fun l hl => ?_)
    cases ls with
    | nil => cases hl
    | cons l' ls => exact hlast l (by simpa using hl)

theorem change_of_sameStart (h : Plainly behind text ls) (hbehind : SameStart behind behind') :
    Plainly behind' text ls := by
  induction h with
  | nil => exact .nil
  | @cons _ _ _ cs _ hscan hat hurl _ ih =>
    exact .cons (hscan.change ((hbehind.append cs).follows hscan.follows)) hat hurl ih

/-- **No word ends inside an escape** if something stands behind. -/
theorem dangles_eq_false (h : Plainly behind text ls) (hbehind : behind ≠ []) :
    ∀ l ∈ ls, l.kind = .word → dangles l.text = false := by
  induction h with
  | nil => simp
  | @cons kind c text cs ls hscan hat hurl htail ih =>
    refine List.forall_mem_cons.mpr ⟨fun hkind => ?_, ih⟩
    obtain rfl : kind = .word := hkind
    by_contra hdangle
    obtain ⟨-, hnil⟩ := (Token.follows_word (by simp)).mp hscan.follows
    exact hbehind (List.append_eq_nil_iff.mp (hnil (by simpa using hdangle))).2

/-- The lexemes of a text without marks of structure. -/
theorem marks_eq_nil (h : Plainly behind text ls)
    (htext : ∀ c ∈ text, Token.punctuation? c = none) : Lexeme.marks ls = [] := by
  induction h with
  | nil => rfl
  | @cons kind c text cs ls hscan hat hurl htail ih =>
    have hmark : kind.isMark = false := by
      generalize text.length = n at hscan
      cases hscan with
      | punctuation _ hkind =>
        rw [htext c (by simp)] at hkind
        cases hkind
      | _ => rfl
    rw [Lexeme.marks_cons_of_not_isMark _ hmark]
    exact ih fun d hd => htext d (List.mem_append_right _ hd)

end Plainly

/-! ### The word of a mark -/

/-- The word of a mark, in any case. -/
def IsImportant (word : List Char) : Prop :=
  Text.eqIgnoringCase word "important".toList = true

namespace IsImportant

variable {word : List Char} {c : Char}

theorem toLower_mem (h : IsImportant word) (hc : c ∈ word) : c.toLower ∈ "important".toList := by
  have hmap : word.map Char.toLower = "important".toList := by
    simpa [IsImportant, Text.eqIgnoringCase] using h
  rw [← hmap]
  exact List.mem_map_of_mem hc

theorem ne (h : IsImportant word) (hc : c ∈ word) {d : Char}
    (hd : d.toLower ∉ "important".toList) : c ≠ d := by
  rintro rfl
  exact hd (h.toLower_mem hc)

theorem isWhiteSpace (h : IsImportant word) (hc : c ∈ word) : Text.isWhiteSpace c = false := by
  by_contra hwhite
  have hlower := h.toLower_mem hc
  rw [Text.toLower_of_isWhiteSpace (by simpa using hwhite)] at hlower
  simp only [show "important".toList =
    ['i', 'm', 'p', 'o', 'r', 't', 'a', 'n', 't'] from rfl, List.mem_cons, List.not_mem_nil,
    or_false] at hlower
  rcases hlower with rfl | rfl | rfl | rfl | rfl | rfl | rfl | rfl | rfl <;> exact hwhite rfl

theorem ne_nil (h : IsImportant word) : word ≠ [] := by
  rintro rfl
  cases h

end IsImportant

/-- **The mark that a value has.** -/
theorem splitImportant_of_mark {front before word after : List Char}
    (hbefore : ∀ c ∈ before, Text.isWhiteSpace c = true) (hword : IsImportant word)
    (hafter : ∀ c ∈ after, Text.isWhiteSpace c = true) :
    (splitImportant (front ++ '!' :: (before ++ (word ++ after)))).1 = Text.trimEnd front ∧
      (splitImportant (front ++ '!' :: (before ++ (word ++ after)))).2.isSome = true := by
  have hne : ∀ c ∈ before ++ (word ++ after), (c != '!') = true := by
    have hwhite {c : Char} (hc : Text.isWhiteSpace c = true) : c ≠ '!' := by
      rintro rfl
      cases hc
    intro c hc
    simp only [List.mem_append] at hc
    rcases hc with hc | hc | hc
    · simpa using hwhite (hbefore c hc)
    · simpa using hword.ne hc (d := '!') (by decide)
    · simpa using hwhite (hafter c hc)
  have hsplit : front ++ '!' :: (before ++ (word ++ after)) =
      front ++ ['!'] ++ (before ++ (word ++ after)) := by simp
  have hdrop : dropTrailing (· != '!') (front ++ '!' :: (before ++ (word ++ after))) =
      front ++ ['!'] := by
    rw [hsplit, dropTrailing_append_of_all _ hne, dropTrailing_append_singleton (by simp)]
  have htake : takeTrailing (· != '!') (front ++ '!' :: (before ++ (word ++ after))) =
      before ++ (word ++ after) := by
    have hboth := dropTrailing_append_takeTrailing (· != '!')
      (front ++ '!' :: (before ++ (word ++ after)))
    rw [hdrop] at hboth
    exact List.append_cancel_left (hboth.trans hsplit)
  have htrim : Text.trim (before ++ (word ++ after)) = word := by
    rw [Text.trim, Text.trimStart, List.dropWhile_append_of_pos hbefore]
    obtain ⟨c, cs, rfl⟩ := List.exists_cons_of_ne_nil hword.ne_nil
    rw [List.cons_append, List.dropWhile_cons_of_neg (by
      simp [hword.isWhiteSpace (List.mem_cons_self)]), Text.trimEnd, ← List.cons_append,
      dropTrailing_append_of_all _ hafter, dropTrailing_eq_self_iff]
    exact fun d hd => hword.isWhiteSpace (List.mem_of_getLast? hd)
  unfold splitImportant
  dsimp only
  rw [hdrop, htake, htrim, if_pos (by simpa [IsImportant] using hword)]
  simp

/-! ### Compaction brings no mark about -/

section Transfer

variable {p : Char → Bool} {y z blank w₀ word w₁ : List Char}

/-- More or less white space makes no difference around a word. -/
theorem exists_blank_of_space (hblank : ∀ c ∈ blank, p c = true) (hspace : p ' ' = true)
    (hw₀ : ∀ c ∈ w₀, p c = true) (hword : ∀ c ∈ word, p c = false)
    (hw₁ : ∀ c ∈ w₁, p c = true) (h : y ++ ' ' :: z = w₀ ++ (word ++ w₁)) :
    ∃ w₀' w₁', (∀ c ∈ w₀', p c = true) ∧ (∀ c ∈ w₁', p c = true) ∧
      y ++ (blank ++ z) = w₀' ++ (word ++ w₁') := by
  rcases List.append_eq_append_iff.mp h with ⟨xs, rfl, hxs⟩ | ⟨xs, rfl, hxs⟩
  · cases xs with
    | nil =>
      -- The space is the first character behind `w₀`, so the word is empty or starts with it.
      cases word with
      | nil =>
        obtain rfl : ' ' :: z = w₁ := by simpa using hxs
        obtain ⟨-, hz⟩ := List.forall_mem_cons.mp hw₁
        refine ⟨y, blank ++ z, by simpa using hw₀, fun c hc => ?_, by simp⟩
        exact (List.mem_append.mp hc).elim (hblank c) (hz c)
      | cons d ds =>
        obtain ⟨rfl, -⟩ := List.cons.inj hxs
        rw [hword ' ' List.mem_cons_self] at hspace
        cases hspace
    | cons x xs =>
      obtain ⟨rfl, rfl⟩ := List.cons.inj hxs
      refine ⟨y ++ (blank ++ xs), w₁, fun c hc => ?_, hw₁, by simp⟩
      simp only [List.mem_append] at hc
      rcases hc with hc | hc | hc
      · exact hw₀ c (by simp [hc])
      · exact hblank c hc
      · exact hw₀ c (by simp [hc])
  · rcases List.append_eq_append_iff.mp hxs.symm with ⟨us, rfl, hus⟩ | ⟨us, rfl, hus⟩
    · cases us with
      | nil =>
        obtain rfl : ' ' :: z = w₁ := by simpa using hus
        obtain ⟨-, hz⟩ := List.forall_mem_cons.mp hw₁
        refine ⟨w₀, blank ++ z, hw₀, fun c hc => ?_, by simp⟩
        exact (List.mem_append.mp hc).elim (hblank c) (hz c)
      | cons u us =>
        obtain ⟨rfl, -⟩ := List.cons.inj hus
        rw [hword ' ' (by simp)] at hspace
        cases hspace
    · subst hus
      refine ⟨w₀, us ++ (blank ++ z), hw₀, fun c hc => ?_, by simp⟩
      simp only [List.mem_append] at hc
      rcases hc with hc | hc | hc
      · exact hw₁ c (by simp [hc])
      · exact hblank c hc
      · exact hw₁ c (by simp [hc])

variable {tight : Tightness} {ls : List Lexeme}

/-- **A word with white space around it** at the end of the compact form is one at the end of the
text, if all spaces are written. -/
theorem Lexeme.exists_word_of_compact {b : Char} {separated : Bool}
    (hspaces : ∀ l ∈ ls, ∀ c ∈ l.text, c ∉ tight.behind ∧ c ∉ tight.before) (hb : b ∉ tight.behind)
    (hne : ∀ l ∈ ls, l.text ≠ [])
    (htrivia : ∀ l ∈ ls, l.kind.isTrivia = true → ∀ c ∈ l.text, Text.isWhiteSpace c = true)
    (hblank : ∀ c ∈ blank, Text.isWhiteSpace c = true) (hseparated : separated = false → blank = [])
    (hw₀ : ∀ c ∈ w₀, Text.isWhiteSpace c = true) (hword : ∀ c ∈ word, Text.isWhiteSpace c = false)
    (hw₁ : ∀ c ∈ w₁, Text.isWhiteSpace c = true)
    (h : y ++ compact tight (some b) separated ls = w₀ ++ (word ++ w₁)) :
    ∃ w₀' w₁', (∀ c ∈ w₀', Text.isWhiteSpace c = true) ∧ (∀ c ∈ w₁', Text.isWhiteSpace c = true) ∧
      y ++ (blank ++ concat ls) = w₀' ++ (word ++ w₁') := by
  induction ls generalizing y blank b separated w₀ w₁ with
  | nil =>
    refine ⟨w₀, w₁ ++ blank, hw₀, fun c hc => ?_, ?_⟩
    · exact (List.mem_append.mp hc).elim (hw₁ c) (hblank c)
    · rw [show y = w₀ ++ (word ++ w₁) by simpa [compact] using h]
      simp
  | cons l ls ih =>
    obtain ⟨hl, hspaces⟩ := List.forall_mem_cons.mp hspaces
    obtain ⟨hl', hne⟩ := List.forall_mem_cons.mp hne
    obtain ⟨hl'', htrivia⟩ := List.forall_mem_cons.mp htrivia
    rw [compact] at h
    split at h
    · next hkind =>
      obtain ⟨w₀', w₁', hw₀', hw₁', heq⟩ := @ih y (blank ++ l.text) w₀ w₁ b true hspaces hb hne
        htrivia (fun c hc => (List.mem_append.mp hc).elim (hblank c) (hl'' hkind c)) (by simp)
        hw₀ hw₁ h
      exact ⟨w₀', w₁', hw₀', hw₁', by simpa using heq⟩
    · obtain ⟨d, text, htext⟩ := List.exists_cons_of_ne_nil hl'
      obtain ⟨b', hb'⟩ : ∃ b', l.text.getLast? = some b' := by
        rw [htext]
        exact ⟨_, List.getLast?_cons⟩
      have hnext := (hl b' (List.mem_of_getLast? hb')).1
      have hspace : tight.spaces (some b) l.text.head? = true := by
        rw [htext]
        simp [Tightness.spaces, hb, (hl d (by simp [htext])).2]
      rw [hspace, hb', Bool.and_true] at h
      cases separated with
      | false =>
        obtain ⟨w₀', w₁', hw₀', hw₁', heq⟩ := @ih (y ++ l.text) [] w₀ w₁ b' false hspaces hnext hne
          htrivia (by simp) (by simp) hw₀ hw₁ (by simpa using h)
        exact ⟨w₀', w₁', hw₀', hw₁', by simpa [hseparated rfl] using heq⟩
      | true =>
        obtain ⟨w₀', w₁', hw₀', hw₁', heq⟩ := @ih (y ++ ' ' :: l.text) [] w₀ w₁ b' false hspaces
          hnext hne htrivia (by simp) (by simp) hw₀ hw₁ (by simpa using h)
        have heq' : y ++ ' ' :: (l.text ++ concat ls) = w₀' ++ (word ++ w₁') := by simpa using heq
        obtain ⟨w₀'', w₁'', hw₀'', hw₁'', hall⟩ :=
          exists_blank_of_space hblank rfl hw₀' hword hw₁' heq'
        exact ⟨w₀'', w₁'', hw₀'', hw₁'', by simpa using hall⟩

/-- Where a character of the compact form comes from. -/
theorem Lexeme.exists_of_compact_eq {a : Char} (ha : a ≠ ' ') {last : Option Char}
    {separated : Bool}
    {pre w : List Char} (h : compact tight last separated ls = pre ++ a :: w) :
    ∃ ls₁ l ls₂ x y, ls = ls₁ ++ l :: ls₂ ∧ l.text = x ++ a :: y ∧
      w = y ++ compact tight l.text.getLast? false ls₂ := by
  induction ls generalizing last separated pre with
  | nil => simp [compact] at h
  | cons l ls ih =>
    have hrest {last : Option Char} {separated : Bool} {pre : List Char}
        (h : compact tight last separated ls = pre ++ a :: w) :
        ∃ ls₁ l' ls₂ x y, l :: ls = ls₁ ++ l' :: ls₂ ∧ l'.text = x ++ a :: y ∧
          w = y ++ compact tight l'.text.getLast? false ls₂ := by
      obtain ⟨ls₁, l', ls₂, x, y, rfl, hl', hw⟩ := ih h
      exact ⟨l :: ls₁, l', ls₂, x, y, rfl, hl', hw⟩
    rw [compact] at h
    split at h
    · exact hrest h
    · rcases List.append_eq_append_iff.mp h with ⟨xs, -, hxs⟩ | ⟨xs, hxs, hrest'⟩
      · exact hrest hxs
      · cases xs with
        | nil => exact @hrest _ _ [] (by simpa using hrest'.symm)
        | cons x xs =>
          obtain ⟨rfl, rfl⟩ := List.cons.inj hrest'
          -- The character is in the text of this lexeme, since it is no space.
          rcases List.append_eq_append_iff.mp hxs with ⟨us, -, hus⟩ | ⟨us, hus, hxs'⟩
          · exact ⟨[], l, ls, us, xs, rfl, hus, rfl⟩
          · cases us with
            | nil => exact ⟨[], l, ls, [], xs, rfl, by simpa using hxs'.symm, rfl⟩
            | cons u us =>
              obtain ⟨rfl, -⟩ := List.cons.inj hxs'
              have hmem : a ∈ pre ++ a :: us := by simp
              rw [← hus] at hmem
              split at hmem
              · exact (ha (by simpa using hmem)).elim
              · cases hmem

/-- What is no trivia is written. -/
theorem Lexeme.mem_compact {last : Option Char} {separated : Bool} {l : Lexeme} (hl : l ∈ ls)
    (hkind : l.kind.isTrivia = false) {c : Char} (hc : c ∈ l.text) :
    c ∈ compact tight last separated ls := by
  induction ls generalizing last separated with
  | nil => cases hl
  | cons l' ls ih =>
    rw [compact]
    rcases List.mem_cons.mp hl with rfl | hl
    · simp [hkind, hc]
    · split
      · exact ih hl
      · exact List.mem_append_right _ (ih hl)

/-- **Compaction brings no mark about** in a value without comments. -/
theorem exists_splitImportant_of_compact (hne : ∀ l ∈ ls, l.text ≠ [])
    (htrivia : ∀ l ∈ ls, l.kind.isTrivia = true → ∀ c ∈ l.text, Text.isWhiteSpace c = true)
    (h : (splitImportant (Lexeme.compact Value.Compact.valueTightness none false ls)).2.isSome =
      true) :
    (splitImportant (Lexeme.concat ls)).2.isSome = true := by
  obtain ⟨mark, hmark⟩ := Option.isSome_iff_exists.mp h
  obtain ⟨hvalue, before, behind, word, after, rfl, -, hbehind, hafter, hword⟩ :=
    isMark_of_splitImportant (Prod.ext rfl hmark)
  rw [← List.append_assoc] at hvalue
  obtain ⟨ls₁, l, ls₂, x, y, rfl, hl, hw⟩ := Lexeme.exists_of_compact_eq (by decide) hvalue
  have himportant : IsImportant word := hword
  -- Behind the `!` there is no tight punctuation.
  have hloose {c : Char} (hc : Text.isWhiteSpace c = true ∨ c ∈ word) :
      c ∉ Value.Compact.valueTightness.behind ∧ c ∉ Value.Compact.valueTightness.before := by
    have hne {d : Char} (hwhite : Text.isWhiteSpace d = false)
        (hd : d.toLower ∉ "important".toList) : c ≠ d := by
      rcases hc with hc | hc
      · rintro rfl
        rw [hwhite] at hc
        cases hc
      · exact himportant.ne hc hd
    have hcomma : c ≠ ',' := hne rfl (by decide)
    have hopen : c ≠ '(' := hne rfl (by decide)
    have hclose : c ≠ ')' := hne rfl (by decide)
    simp [Value.Compact.valueTightness, hcomma, hopen, hclose]
  have hof {c : Char} (hc : c ∈ behind ++ (word ++ after)) :
      Text.isWhiteSpace c = true ∨ c ∈ word := by
    simp only [List.mem_append] at hc
    rcases hc with hc | hc | hc
    · exact .inl (hbehind c hc)
    · exact .inr hc
    · exact .inl (hafter c hc)
  obtain ⟨b, hb, hbmem⟩ : ∃ b, l.text.getLast? = some b ∧ b ∈ '!' :: y := by
    refine ⟨_, by rw [hl, List.getLast?_append, List.getLast?_cons]; rfl, ?_⟩
    cases hy : y.getLast? with
    | none => simp
    | some a => exact List.mem_cons_of_mem _ (List.mem_of_getLast? hy)
  rw [hb] at hw
  have hb' : b ∉ Value.Compact.valueTightness.behind := by
    rcases List.mem_cons.mp hbmem with rfl | hmem
    · decide
    · exact (hloose (hof (by rw [hw]; exact List.mem_append_left _ hmem))).1
  have hmem {l' : Lexeme} (hl' : l' ∈ ls₂) : l' ∈ ls₁ ++ l :: ls₂ := by simp [hl']
  obtain ⟨w₀, w₁, hw₀, hw₁, hall⟩ := @Lexeme.exists_word_of_compact y [] behind word after _ ls₂ b
    false (fun l' hl' c hc => by
      cases hkind : l'.kind.isTrivia with
      | true => exact hloose (.inl (htrivia l' (hmem hl') hkind c hc))
      | false =>
        refine hloose (hof ?_)
        rw [hw]
        exact List.mem_append_right _ (Lexeme.mem_compact hl' hkind hc))
    hb' (fun l' hl' => hne l' (hmem hl')) (fun l' hl' => htrivia l' (hmem hl')) (by simp) (by simp)
    hbehind (fun c hc => himportant.isWhiteSpace hc) hafter hw.symm
  have hconcat : Lexeme.concat (ls₁ ++ l :: ls₂) =
      (Lexeme.concat ls₁ ++ x) ++ '!' :: (w₀ ++ (word ++ w₁)) := by
    rw [← hall, Lexeme.concat_append, Lexeme.concat_cons, hl]
    simp
  rw [hconcat]
  exact (splitImportant_of_mark hw₀ himportant hw₁).2

end Transfer

/-! ### The mark behind a compacted value -/

namespace Token

/-- **A word that goes on behind a character that ends words** has that character escaped, and it
could go on with any other. -/
theorem dangles_of_wordTail {z w : List Char} {a : Char} (ha : endsWord a = true)
    (h : wordTail (z ++ a :: w) = (z ++ a :: w).length) :
    dangles z = true ∧ wordTail z = z.length ∧ ∀ (b : Char) (u : List Char),
      wordTail u = u.length → wordTail (z ++ b :: u) = (z ++ b :: u).length := by
  have hne : a ≠ '\\' := by
    rintro rfl
    cases ha
  fun_induction dangles z with
  | case1 => simp [wordTail_cons_of_ne _ hne, ha] at h
  | case2 => exact ⟨rfl, rfl, fun b u hu => by simp [wordTail_escape, hu]⟩
  | case3 d z ih =>
    obtain ⟨hdangle, hown, hall⟩ := ih (by simpa [wordTail_escape] using h)
    exact ⟨hdangle, by simpa [wordTail_escape] using hown,
      fun b u hu => by simpa [wordTail_escape] using hall b u hu⟩
  | case4 c z hne₁ hne₂ ih =>
    have hc : c ≠ '\\' := Token.ne_backslash hne₁ hne₂
    rw [List.cons_append, wordTail_cons_of_ne _ hc] at h
    split at h
    · simp at h
    next hstop =>
    obtain ⟨hdangle, hown, hall⟩ := ih (by simpa using h)
    cases z with
    | nil => cases hdangle
    | cons d ds =>
      have hstop' : ¬(endsWord c = true ∨ (c = '/' ∧ some d = some '*')) := hstop
      refine ⟨hdangle, ?_, fun b u hu => ?_⟩
      · rw [wordTail_cons_of_ne _ hc, List.head?_cons, if_neg hstop', hown]
        rfl
      · have := hall b u hu
        rw [List.cons_append] at this
        rw [List.cons_append, List.cons_append, wordTail_cons_of_ne _ hc, List.head?_cons,
          if_neg hstop', this]
        rfl

/-- A text that ends inside an escape ends in a backslash. -/
theorem getLast?_of_dangles {z : List Char} (h : dangles z = true) : z.getLast? = some '\\' := by
  fun_induction dangles z with
  | case1 => cases h
  | case2 => rfl
  | case3 d z ih =>
    rw [List.getLast?_cons, List.getLast?_cons, ih h]
    rfl
  | case4 c z hne₁ hne₂ ih =>
    rw [List.getLast?_cons, ih h]
    rfl

theorem mem_of_dangles {z : List Char} (h : dangles z = true) : '\\' ∈ z :=
  List.mem_of_getLast? (getLast?_of_dangles h)

/-- Behind an escaped character a text starts anew. -/
theorem dangles_append_cons {z : List Char} (h : dangles z = true) (b : Char) (u : List Char) :
    dangles (z ++ b :: u) = dangles u := by
  fun_induction dangles z with
  | case1 => cases h
  | case2 => rfl
  | case3 d z ih => exact ih h
  | case4 c z hne₁ hne₂ ih =>
    have hc : c ≠ '\\' := Token.ne_backslash hne₁ hne₂
    rw [List.cons_append, dangles_cons_of_ne _ hc, ih h]

/-- The same for a whole word. -/
theorem dangles_of_scanWord {c : Char} {z w : List Char} {a : Char} (ha : endsWord a = true)
    (h : scanWord c (z ++ a :: w) = (z ++ a :: w).length) :
    dangles (c :: z) = true ∧ scanWord c z = z.length ∧ ∀ (b : Char) (u : List Char),
      wordTail u = u.length → scanWord c (z ++ b :: u) = (z ++ b :: u).length := by
  by_cases hc : c = '\\'
  · subst hc
    cases z with
    | nil => exact ⟨rfl, rfl, fun b u hu => by simp [scanWord, hu]⟩
    | cons d z =>
      obtain ⟨hdangle, hown, hall⟩ := dangles_of_wordTail (z := z) (w := w) ha
        (by simpa [scanWord] using h)
      exact ⟨hdangle, by simpa [scanWord] using hown,
        fun b u hu => by simpa [scanWord] using hall b u hu⟩
  · have hscan := Token.scanWord_of_ne hc
    rw [hscan] at h
    simp only [hscan]
    rw [dangles_cons_of_ne _ hc]
    exact dangles_of_wordTail ha h

/-- **A token with a character that ends words inside** is a word that has it escaped, unless it is
one of the tokens that may have it. -/
theorem Scans.dangles_of_endsWord {c a : Char} {z w ahead : List Char} {kind : Kind}
    (h : Scans c (z ++ a :: w ++ ahead) .plain kind (z ++ a :: w).length) (ha : endsWord a = true)
    (hspace : kind ≠ .space) (hat : kind ≠ .atWord) (hcomment : kind ≠ .comment)
    (hquote : ∀ d ∈ a :: w, d ≠ '"' ∧ d ≠ '\'') :
    kind = .word ∧ dangles (c :: z) = true ∧ scanWord c z = z.length ∧
      ∀ (b : Char) (u : List Char), wordTail u = u.length →
        scanWord c (z ++ b :: u) = (z ++ b :: u).length := by
  generalize hn : (z ++ a :: w).length = n at h
  cases h with
  | space => contradiction
  | punctuation => simp at hn
  | string _ hc hreach =>
    rw [← hn, stringTail_append_iff le_rfl] at hreach
    have hlast := getLast?_of_stringTail hreach
    rw [List.getLast?_append_of_ne_nil _ (by simp)] at hlast
    have hmem := hquote c (List.mem_of_getLast? hlast)
    exact (hc.elim hmem.2 hmem.1).elim
  | atWord => contradiction
  | comment => contradiction
  | word =>
    obtain ⟨hown, -, -⟩ := scanWord_append_eq_length_iff.mp hn.symm
    exact ⟨rfl, dangles_of_scanWord ha hown⟩

end Token

/-- The characters of a mark. -/
theorem IsMark.mem {mark : List Char} (h : IsMark mark) {c : Char} (hc : c ∈ mark) :
    Text.isWhiteSpace c = true ∨ c = '!' ∨ c.toLower ∈ "important".toList := by
  obtain ⟨before, behind, word, after, rfl, hbefore, hbehind, hafter, hword⟩ := h
  have himportant : IsImportant word := hword
  simp only [List.mem_append, List.mem_cons] at hc
  rcases hc with hc | rfl | hc | hc | hc
  · exact .inl (hbefore c hc)
  · exact .inr (.inl rfl)
  · exact .inl (hbehind c hc)
  · exact .inr (.inr (himportant.toLower_mem hc))
  · exact .inl (hafter c hc)

/-- Other characters are in no mark. -/
theorem IsMark.ne {mark : List Char} (h : IsMark mark) {c : Char} (hc : c ∈ mark) {d : Char}
    (hwhite : Text.isWhiteSpace d = false) (hbang : d ≠ '!')
    (hd : d.toLower ∉ "important".toList) : c ≠ d := by
  rintro rfl
  rcases h.mem hc with h | h | h
  · rw [hwhite] at h
    cases h
  · exact hbang h
  · exact hd h

/-- A mark has no punctuation. -/
theorem IsMark.punctuation? {mark : List Char} (h : IsMark mark) :
    ∀ c ∈ mark, Token.punctuation? c = none := by
  intro c hc
  unfold Token.punctuation?
  split <;> first
    | rfl
    | exact (h.ne hc rfl (by decide) (by decide) rfl).elim

/-- The characters of a mark are no punctuation, and open nothing. -/
theorem IsMark.plain {mark : List Char} (h : IsMark mark) : ∀ c ∈ mark,
    Token.punctuation? c = none ∧ c ≠ '"' ∧ c ≠ '\'' ∧ c ≠ '@' ∧ c ≠ '/' ∧ c ≠ '#' ∧ c ≠ '\\' := by
  intro c hc
  have hne {d : Char} (hwhite : Text.isWhiteSpace d = false) (hbang : d ≠ '!')
      (hd : d.toLower ∉ "important".toList) : c ≠ d := h.ne hc hwhite hbang hd
  exact ⟨h.punctuation? c hc, hne rfl (by decide) (by decide), hne rfl (by decide) (by decide),
    hne rfl (by decide) (by decide), hne rfl (by decide) (by decide),
    hne rfl (by decide) (by decide), hne rfl (by decide) (by decide)⟩

/-- A mark starts with white space or with its `!`. -/
theorem IsMark.head {mark : List Char} (h : IsMark mark) :
    ∃ a cs, mark = a :: cs ∧ (Text.isWhiteSpace a = true ∨ a = '!') := by
  obtain ⟨before, behind, word, after, rfl, hbefore, -⟩ := h
  cases before with
  | nil => exact ⟨_, _, rfl, .inr rfl⟩
  | cons a before => exact ⟨_, _, rfl, .inl (hbefore a List.mem_cons_self)⟩

namespace Lexeme

variable {ls : List Lexeme}

/-- **A text is cut** between two lexemes or inside one. -/
theorem exists_cut {front back : List Char} (h : concat ls = front ++ back) :
    (∃ ls₀ ls₁, ls = ls₀ ++ ls₁ ∧ concat ls₀ = front ∧ concat ls₁ = back) ∨
      ∃ ls₀ l ls₁ x y, ls = ls₀ ++ l :: ls₁ ∧ l.text = x ++ y ∧ x ≠ [] ∧ y ≠ [] ∧
        front = concat ls₀ ++ x ∧ back = y ++ concat ls₁ := by
  induction ls generalizing front with
  | nil =>
    obtain ⟨rfl, rfl⟩ := List.append_eq_nil_iff.mp h.symm
    exact .inl ⟨[], [], rfl, rfl, rfl⟩
  | cons l ls ih =>
    rw [concat_cons] at h
    rcases List.append_eq_append_iff.mp h with ⟨xs, rfl, hxs⟩ | ⟨xs, hl, rfl⟩
    · rcases ih hxs with
        ⟨ls₀, ls₁, rfl, rfl, rfl⟩ | ⟨ls₀, l', ls₁, x, y, rfl, hl', hx, hy, rfl, rfl⟩
      · exact .inl ⟨l :: ls₀, ls₁, rfl, rfl, rfl⟩
      · exact .inr ⟨l :: ls₀, l', ls₁, x, y, rfl, hl', hx, hy, by simp, rfl⟩
    · cases front with
      | nil => exact .inl ⟨[], l :: ls, rfl, rfl, by simp [hl]⟩
      | cons c front =>
        cases xs with
        | nil => exact .inl ⟨[l], ls, rfl, by simp [hl], by simp⟩
        | cons d xs =>
          exact .inr ⟨[], l, ls, c :: front, d :: xs, rfl, hl, by simp, by simp, rfl, rfl⟩

variable {tight : Tightness} {x z : List Char}

/-- A word at the end goes on. -/
theorem compact_concat_word (hx : x ≠ []) (last : Option Char) (separated : Bool) :
    compact tight last separated (ls ++ [⟨.word, x ++ z⟩]) =
      compact tight last separated (ls ++ [⟨.word, x⟩]) ++ z := by
  induction ls generalizing last separated with
  | nil =>
    obtain ⟨c, cs, rfl⟩ := List.exists_cons_of_ne_nil hx
    simp [compact, Token.Kind.isTrivia]
  | cons l ls ih =>
    rw [List.cons_append, List.cons_append, compact, compact]
    split
    · exact ih _ _
    · rw [ih]
      simp

/-- The compact form ends like the text. -/
theorem getLast?_compact (hls : ∀ l ∈ ls.getLast?, l.kind.isTrivia = false)
    (hne : ∀ l ∈ ls, l.text ≠ []) (last : Option Char) (separated : Bool) :
    (compact tight last separated ls).getLast? = (concat ls).getLast? := by
  rcases List.eq_nil_or_concat ls with rfl | ⟨front, l, rfl⟩
  · rfl
  rw [List.concat_eq_append] at hls hne ⊢
  have hl : l.text ≠ [] := hne l (by simp)
  have htrivia : l.kind.isTrivia = false := hls l (by simp)
  clear hls hne
  rw [concat_append, List.getLast?_append_of_ne_nil _ (by simpa using hl)]
  induction front generalizing last separated with
  | nil => simp [compact, htrivia, List.getLast?_append_of_ne_nil _ hl]
  | cons l' front ih =>
    rw [List.cons_append, compact]
    split
    · exact ih _ _
    · rw [List.getLast?_append_of_ne_nil, ih]
      intro hnil
      have := ih l'.text.getLast? false
      rw [hnil] at this
      exact hl (List.getLast?_eq_none_iff.mp (by simpa using this.symm))

/-- A word behind what is no trivia. -/
theorem compact_concat (hls : ∀ l ∈ ls.getLast?, l.kind.isTrivia = false) (last : Option Char)
    {separated : Bool} (hseparated : ls = [] → separated = false) :
    compact tight last separated (ls ++ [⟨.word, z⟩]) = compact tight last separated ls ++ z := by
  induction ls generalizing last separated with
  | nil => simp [compact, Token.Kind.isTrivia, hseparated rfl]
  | cons l ls ih =>
    have hrest (last : Option Char) {separated : Bool} (hseparated : ls = [] → separated = false) :=
      ih (fun l' hl' => hls l' (by
        cases ls with
        | nil => cases hl'
        | cons l'' ls => simpa using hl')) last hseparated
    rw [List.cons_append, compact, compact]
    split
    · next htrivia =>
      refine hrest last fun hnil => ?_
      subst hnil
      have := hls l rfl
      rw [htrivia] at this
      cases this
    · rw [hrest _ fun _ => rfl]
      simp

end Lexeme

namespace Plainly

variable {behind behind' kept mark : List Char} {ls : List Lexeme}

/-- The mark as the compact layout writes it. -/
theorem important (hbehind' : WordEnds behind') :
    Plainly behind' "!important".toList [⟨.word, "!important".toList⟩] := by
  have hreach : scanWord '!' ("important".toList ++ behind') = "important".toList.length :=
    Token.scanWord_append_eq_length_iff.mpr ⟨by decide, hbehind', fun h => by cases h⟩
  have hscan : Scans '!' ("important".toList ++ ([] ++ behind')) .plain .word _ :=
    .word (by simp) ⟨rfl, rfl, by decide, by decide, by decide, fun h => by cases h.1⟩
  rw [List.nil_append, hreach] at hscan
  exact @cons behind' .word '!' "important".toList [] [] hscan (by simp) (by decide) .nil

/-- **A value with the mark written behind it** as a word is read as `ls'`, with the punctuation of
`ls`, and compaction leaves the word at the end. -/
structure Marked (tight : Tightness) (behind kept : List Char) (ls ls' : List Lexeme) : Prop where
  plainly : Plainly behind (kept ++ "!important".toList) ls'
  marks : Lexeme.marks ls' = Lexeme.marks ls
  dangles : ∀ l ∈ ls', l.kind = .word → dangles l.text = false
  compact : Lexeme.compact tight none false ls' =
    Value.Compact.compact tight kept ++ "!important".toList
  last : (Value.Compact.compact tight kept).getLast? = kept.getLast?

/-- Where the value ends between two lexemes, the mark becomes a word of its own. -/
private theorem exists_marked_of_ends (tight : Tightness) (h : Plainly behind kept ls)
    (hstar : behind.head? ≠ some '*')
    (hwhite : ∀ c ∈ kept, Text.isWhiteSpace c = true → isBlank c = true)
    (hlast : ∀ l ∈ ls.getLast?, l.kind.isTrivia = false)
    (hdangle : ∀ l ∈ ls, l.kind = .word → dangles l.text = false) (hbehind' : WordEnds behind') :
    ∃ ls', Marked tight behind' kept ls ls' := by
  have hfront : Plainly ("!important".toList ++ behind') kept ls := by
    refine h.change hstar (by simp) fun l hl => ?_
    have hmem : l ∈ ls := List.mem_of_getLast? hl
    have hat := h.kind_ne_atWord l hmem
    have htrivia := hlast l hl
    cases hkind : l.kind with
    | space =>
      rw [hkind] at htrivia
      cases htrivia
    | atWord => contradiction
    | word =>
      refine (Token.follows_word (by simp)).mpr ⟨fun c hc => ?_, ?_⟩
      · obtain rfl : '!' = c := by simpa using hc
        exact .inl rfl
      · simp [hdangle l hmem hkind]
    | _ => trivial
  have hcompact := h.write_units hwhite tight none false
  refine ⟨ls ++ [⟨.word, "!important".toList⟩], hfront.append (important hbehind'), ?_, ?_, ?_, ?_⟩
  · rw [Lexeme.marks_append, Lexeme.marks_cons_of_not_isMark _ rfl]
    exact List.append_nil _
  · intro l hl hkind
    rcases List.mem_append.mp hl with hl | hl
    · exact hdangle l hl hkind
    · obtain rfl := List.mem_singleton.mp hl
      decide
  · rw [Lexeme.compact_concat hlast none fun _ => rfl, ← hcompact]
    rfl
  · rw [Value.Compact.compact, hcompact, Lexeme.getLast?_compact hlast h.text_ne_nil, h.concat_eq]

/-- **A word that ends inside an escape** goes on with the mark: it is a word alone, and one with the
mark behind it. -/
private theorem word_of_dangles {c : Char} {x more : List Char} (hdangle : dangles (c :: x) = true)
    (hstart : StartsWord c (x ++ more)) (hown : scanWord c x = x.length)
    (hgoes : ∀ (b : Char) (u : List Char), wordTail u = u.length →
      scanWord c (x ++ b :: u) = (x ++ b :: u).length) (hbehind' : WordEnds behind') :
    Plainly [] (c :: x) [⟨.word, c :: x⟩] ∧ Plainly behind' (c :: x ++ "!important".toList)
      [⟨.word, c :: x ++ "!important".toList⟩] := by
  obtain ⟨hblank, hpunctuation, hsingle, hdouble, hat, hslash⟩ := hstart
  have hurl {text : List Char} : Lexeme.isUrl ⟨.word, c :: x ++ text⟩ = false :=
    Lexeme.isUrl_eq_false (List.mem_append_left _ (Token.mem_of_dangles hdangle)) (by decide)
  -- The word goes on with anything.
  have hword {text ahead : List Char} (hlength : scanWord c (x ++ text) = (x ++ text).length)
      (hahead : WordEnds ahead) (hends : dangles (c :: x ++ text) = true → ahead = []) :
      Plainly ahead (c :: x ++ text) [⟨.word, c :: x ++ text⟩] := by
    have hstart : StartsWord c (x ++ text ++ ahead) := by
      refine ⟨hblank, hpunctuation, hsingle, hdouble, hat, ?_⟩
      rintro ⟨hc, hhead⟩
      cases x with
      | nil =>
        subst hc
        cases hdangle
      | cons d x => exact hslash ⟨hc, by simpa using hhead⟩
    have hscan : Scans c (x ++ text ++ ([] ++ ahead)) .plain .word _ := .word (by simp) hstart
    rw [List.nil_append, Token.scanWord_append_eq_length_iff.mpr ⟨hlength, hahead, hends⟩]
      at hscan
    simpa using @cons ahead .word c (x ++ text) [] [] hscan (by simp) hurl .nil
  refine ⟨?_, hword (hgoes '!' "important".toList (by decide)) hbehind' fun h => ?_⟩
  · have := @hword [] [] (by simpa using hown) (by simp [WordEnds]) (fun _ => rfl)
    simpa using this
  · have := (Token.dangles_append_cons hdangle '!' "important".toList).symm.trans h
    cases this

/-- Where the value ends inside an escape, the mark becomes part of the word there. -/
private theorem exists_marked_of_dangles (tight : Tightness) {text more : List Char} {c : Char}
    {x : List Char} (h : Plainly (c :: x ++ more) text ls) (hmore : more.head? ≠ some '*')
    (hword : Plainly [] (c :: x) [⟨.word, c :: x⟩])
    (hmarked : Plainly behind' (c :: x ++ "!important".toList)
      [⟨.word, c :: x ++ "!important".toList⟩])
    (hwhite : ∀ d ∈ text ++ c :: x, Text.isWhiteSpace d = true → isBlank d = true)
    (hown : dangles (c :: x) = true)
    (hdangle : ∀ l ∈ ls, l.kind = .word → dangles l.text = false) :
    ∃ ls', Marked tight behind' (text ++ c :: x) ls ls' := by
  have hplain : Plainly [] (text ++ c :: x) (ls ++ [⟨.word, c :: x⟩]) := by
    refine Plainly.append (h.change_of_sameStart ?_) hword
    simpa using SameStart.of_append (by simp : c :: x ≠ []) hmore
      (by simp : ([] : List Char).head? ≠ some '*')
  have hcompact := hplain.write_units hwhite tight none false
  refine ⟨ls ++ [⟨.word, c :: x ++ "!important".toList⟩], ?_, ?_, ?_, ?_, ?_⟩
  · rw [List.append_assoc]
    refine Plainly.append (h.change_of_sameStart ?_) hmarked
    simpa using SameStart.of_append (by simp : c :: x ≠ []) hmore
      (by simp : ("!important".toList ++ behind').head? ≠ some '*')
  · rw [Lexeme.marks_append, Lexeme.marks_cons_of_not_isMark _ rfl]
    exact List.append_nil _
  · intro l hl hkind
    rcases List.mem_append.mp hl with hl | hl
    · exact hdangle l hl hkind
    · obtain rfl := List.mem_singleton.mp hl
      exact Token.dangles_append_cons hown '!' "important".toList
  · rw [Lexeme.compact_concat_word (by simp), ← hcompact]
    rfl
  · rw [Value.Compact.compact, hcompact, Lexeme.getLast?_compact (by simp; rfl)
      hplain.text_ne_nil, hplain.concat_eq]

/-- **The word takes the place of the mark.**  Where the text in front of the mark ends inside an
escape, the mark becomes part of the word there. -/
theorem exists_marked (tight : Tightness) (h : Plainly behind (kept ++ mark) ls)
    (hkept : ∀ c ∈ kept.getLast?, Text.isWhiteSpace c = false) (hmark : IsMark mark)
    (hwhite : ∀ c ∈ kept ++ mark, Text.isWhiteSpace c = true → isBlank c = true)
    (hcomment : ∀ l ∈ ls, l.kind ≠ .comment)
    (hdangle : ∀ l ∈ ls, l.kind = .word → dangles l.text = false) (hbehind' : WordEnds behind') :
    ∃ ls', Marked tight behind' kept ls ls' := by
  obtain ⟨a, mark', rfl, ha⟩ := hmark.head
  have hends : endsWord a = true := by
    rcases ha with ha | rfl
    · have := hwhite a (by simp) ha
      simp [endsWord, this]
    · rfl
  have hstar : (a :: mark' ++ behind).head? ≠ some '*' := by
    rintro hstar
    obtain rfl : a = '*' := by simpa using hstar
    cases hends
  have hkept' (text : List Char) (l : Lexeme) (htext : l.text ≠ [])
      (hcut : kept = text ++ l.text) (hspells : l.kind.Spells l.text) : l.kind ≠ .space := by
    intro hkind
    rw [hkind] at hspells
    obtain ⟨front, c, hl⟩ := (List.eq_nil_or_concat l.text).resolve_left htext
    have hc := hspells c (by rw [hl]; simp)
    have := hkept c (by rw [hcut, hl]; simp)
    rw [Text.isWhiteSpace_of_isBlank hc] at this
    cases this
  have hkeptWhite : ∀ c ∈ kept, Text.isWhiteSpace c = true → isBlank c = true :=
    fun c hc => hwhite c (List.mem_append_left _ hc)
  have hrest {text : List Char} {ls₁ : List Lexeme} (hls₁ : Plainly behind text ls₁)
      (htext : ∀ c ∈ text, c ∈ a :: mark') : Lexeme.marks ls₁ = [] :=
    hls₁.marks_eq_nil fun c hc => hmark.punctuation? c (htext c hc)
  rcases Lexeme.exists_cut h.concat_eq with ⟨ls₀, ls₁, rfl, hls₀, hls₁⟩ |
    ⟨ls₀, l, ls₁, x, y, rfl, hl, hx, hy, hfront, hback⟩
  · -- The mark starts with a lexeme.
    obtain ⟨cs, ds, hcut, hcs, hds⟩ := h.exists_of_append
    obtain rfl : cs = kept := hcs.concat_eq.symm.trans hls₀
    obtain rfl := List.append_cancel_left hcut
    have hlast : ∀ l ∈ ls₀.getLast?, l.kind.isTrivia = false := by
      intro l hl
      have hmem : l ∈ ls₀ := List.mem_of_getLast? hl
      have hcomment := hcomment l (List.mem_append_left _ hmem)
      have hspace : l.kind ≠ .space := by
        refine hkept' (Lexeme.concat ls₀.dropLast) l (hcs.text_ne_nil l hmem) ?_
          (hcs.lexes.spells l hmem)
        have hsplit := List.dropLast_append_getLast? l hl
        rw [← hls₀]
        conv_lhs => rw [← hsplit]
        simp
      cases hkind : l.kind <;> first | rfl | contradiction
    obtain ⟨ls', hmarked⟩ := hcs.exists_marked_of_ends tight hstar hkeptWhite hlast
      (fun l hl => hdangle l (List.mem_append_left _ hl)) hbehind'
    refine ⟨ls', { hmarked with marks := hmarked.marks.trans ?_ }⟩
    rw [Lexeme.marks_append, hrest hds fun c hc => hc, List.append_nil]
  · -- The mark starts inside a lexeme, which can only be a word with an escape.
    obtain ⟨cs, ds, hcut, hcs, hds⟩ := h.exists_of_append
    subst hfront
    obtain rfl : cs = Lexeme.concat ls₀ := hcs.concat_eq.symm
    obtain ⟨kind, text⟩ := l
    obtain rfl : text = x ++ y := hl
    obtain ⟨c, x, rfl⟩ := List.exists_cons_of_ne_nil hx
    obtain ⟨a', y, rfl⟩ := List.exists_cons_of_ne_nil hy
    obtain ⟨rfl, rfl⟩ := List.cons.inj hback
    have hspace : kind ≠ .space := by
      rintro rfl
      have hspells := hds.lexes.spells _ List.mem_cons_self
      exact hkept' (Lexeme.concat ls₀) ⟨.space, c :: x⟩ (by simp) rfl
        (fun d hd => hspells d (List.mem_append_left _ hd)) rfl
    have hcomment' : kind ≠ .comment := hcomment _ (List.mem_append_right _ List.mem_cons_self)
    have hat : kind ≠ .atWord := hds.kind_ne_atWord _ List.mem_cons_self
    obtain ⟨ahead, hscan, text, htail⟩ : ∃ ahead, Scans c (x ++ a :: y ++ ahead) .plain kind
        (x ++ a :: y).length ∧ ∃ text, Plainly behind text ls₁ := by
      cases hds with
      | cons hscan _ _ htail => exact ⟨_, hscan, _, htail⟩
    have hmem : ∀ d ∈ a :: y, d ∈ a :: (y ++ Lexeme.concat ls₁) :=
      fun d hd => List.mem_append_left (Lexeme.concat ls₁) hd
    obtain ⟨rfl, hdangling, hown, hgoes⟩ := hscan.dangles_of_endsWord hends hspace hat hcomment'
      fun d hd => ⟨hmark.ne (hmem d hd) rfl (by decide) (by decide),
        hmark.ne (hmem d hd) rfl (by decide) (by decide)⟩
    obtain ⟨hword, hmarked⟩ := word_of_dangles hdangling
      (by simpa only [List.append_assoc] using (hscan.word_spec (by simp)).1) hown hgoes hbehind'
    rw [← List.append_cancel_left (by simpa using hcut : _ ++ _ = Lexeme.concat ls₀ ++ ds)] at hcs
    obtain ⟨ls', hmarked'⟩ := exists_marked_of_dangles tight
      (show Plainly (c :: x ++ (a :: (y ++ Lexeme.concat ls₁) ++ behind)) _ ls₀ by simpa using hcs)
      hstar hword hmarked hkeptWhite hdangling
      fun l hl => hdangle l (List.mem_append_left _ hl)
    refine ⟨ls', { hmarked' with marks := hmarked'.marks.trans ?_ }⟩
    have hls₁ : Lexeme.marks ls₁ = [] := hrest htail fun d hd => by
      rw [← htail.concat_eq] at hd
      exact List.mem_cons_of_mem a (List.mem_append_right y hd)
    rw [Lexeme.marks_append, Lexeme.marks_cons_of_not_isMark _ rfl, hls₁, List.append_nil]

end Plainly

end LosslessCss
