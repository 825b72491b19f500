import LosslessCss.Proofs.Lexing

/-!
# What a token needs to know about the text behind it

A token is read with all the text behind it in sight, but little of that text matters.  Brackets,
punctuation, strings and comments need none of it.  A word needs to see that it ends here, an
at-word and blank space likewise, an unquoted address needs its closing parenthesis. 
`Token.Follows` says exactly this much, so a stretch of text is read in the same way in front of any
text that its last token can stand in front of.

This is what makes it possible to take a statement out of one sheet and print it in another.

## Main Definitions

* `Token.dangles` : a text that ends inside an escape
* `Token.Follows` : the text ahead ends the token
* `SameStart` : two texts that look the same to the token in front of them
* `Token.Stops` : the text ahead starts like the end of a statement
* `Lexeme.opensAddress` : the stretch ends in `url(`, so an address may start behind it

## Main Statements

* `Token.Scans.follows`, `Token.Scans.change` : a token depends on `Token.Follows` only
* `Token.Scans.join` : two words that nothing separates are one
* `Lexes.change_of_sameStart`, `Lexes.change` : the same for a stretch
* `Lexes.last_eq_address_iff` : an address starts exactly behind `url(`
-/

namespace LosslessCss

namespace Token

/-! ### Words and escapes -/

/-- **The text ends inside an escape**: its last backslash has no character to take along. -/
def dangles : List Char → Bool
  | [] => false
  | ['\\'] => true
  | '\\' :: _ :: cs => dangles cs
  | _ :: cs => dangles cs

/-- The text ahead ends a word: with its end, with a comment, or with a character that ends
words. -/
def WordEnds (cs : List Char) : Prop :=
  ∀ c ∈ cs.head?, endsWord c = true ∨ (c = '/' ∧ cs.tail.head? = some '*')

theorem wordTail_nil : wordTail [] = 0 := rfl

theorem wordTail_backslash : wordTail ['\\'] = 1 := rfl

/-- A word takes an escaped character along. -/
theorem wordTail_escape (c : Char) (cs : List Char) :
    wordTail ('\\' :: c :: cs) = wordTail cs + 2 := rfl

theorem wordTail_cons_of_ne {c : Char} (cs : List Char) (h : c ≠ '\\') :
    wordTail (c :: cs) =
      if endsWord c = true ∨ (c = '/' ∧ cs.head? = some '*') then 0 else wordTail cs + 1 := by
  rw [wordTail.eq_def]
  split
  · contradiction
  · next hcut => simp_all
  · next hcut => simp_all
  · next hcut => simp_all
  · next hcomment hcut =>
    cases hcut
    have hno : ¬(c = '/' ∧ cs.head? = some '*') := by
      rintro ⟨rfl, hhead⟩
      obtain ⟨ds, rfl⟩ := List.head?_eq_some_iff.mp hhead
      exact hcomment _ rfl rfl
    simp [hno]

/-- The last case of a recursion over escapes. -/
theorem ne_backslash {c : Char} {cs : List Char} (hnil : c = '\\' → cs = [] → False)
    (hcons : ∀ d ds, c = '\\' → cs = d :: ds → False) : c ≠ '\\' := by
  intro hc
  cases cs with
  | nil => exact hnil hc rfl
  | cons d ds => exact hcons d ds hc rfl

theorem dangles_cons_of_ne {c : Char} (cs : List Char) (h : c ≠ '\\') :
    dangles (c :: cs) = dangles cs := by
  rw [dangles.eq_def]
  split <;> simp_all

/-- A word is empty exactly if the text ahead ends it. -/
theorem wordTail_eq_zero_iff {cs : List Char} : wordTail cs = 0 ↔ WordEnds cs := by
  cases cs with
  | nil => simp [wordTail_nil, WordEnds]
  | cons c cs =>
    by_cases hc : c = '\\'
    · subst hc
      cases cs with
      | nil => simp [wordTail_backslash, WordEnds, endsWord, isBlank]
      | cons d ds => simp [wordTail_escape, WordEnds, endsWord, isBlank]
    · rw [wordTail_cons_of_ne cs hc]
      split <;> simp_all [WordEnds]

/-- **How far a word reaches** depends on its text and on whether the text ahead ends it. -/
theorem wordTail_append_eq_length_iff {text ahead : List Char} :
    wordTail (text ++ ahead) = text.length ↔
      wordTail text = text.length ∧ WordEnds ahead ∧ (dangles text = true → ahead = []) := by
  fun_induction dangles text with
  | case1 => simp [wordTail_nil, wordTail_eq_zero_iff]
  | case2 =>
    cases ahead with
    | nil => simp [wordTail_backslash, WordEnds]
    | cons c cs => simp [wordTail_escape]
  | case3 c cs ih => simpa [wordTail_escape] using ih
  | case4 c cs hne₁ hne₂ ih =>
    have hc : c ≠ '\\' := ne_backslash hne₁ hne₂
    -- Only a slash at the end of the text sees a star in the text ahead, which ends no word.
    have hstar : ahead.head? = some '*' → ¬WordEnds ahead := by
      intro hhead hends
      rcases hends '*' hhead with h | ⟨h, -⟩
      · simp [endsWord, isBlank] at h
      · cases h
    rw [List.cons_append, wordTail_cons_of_ne _ hc, wordTail_cons_of_ne _ hc]
    by_cases hstop : endsWord c = true ∨ (c = '/' ∧ cs.head? = some '*')
    · have hstop' : endsWord c = true ∨ (c = '/' ∧ (cs ++ ahead).head? = some '*') := by
        refine hstop.imp_right fun hcomment => ⟨hcomment.1, ?_⟩
        rw [List.head?_append, hcomment.2, Option.some_or]
      rw [if_pos hstop, if_pos hstop']
      simp
    · rw [if_neg hstop]
      by_cases hstop' : endsWord c = true ∨ (c = '/' ∧ (cs ++ ahead).head? = some '*')
      · rw [if_pos hstop']
        cases cs with
        | nil => simp_all
        | cons d ds => exact absurd hstop' hstop
      · rw [if_neg hstop', List.length_cons, Nat.add_right_cancel_iff, Nat.add_right_cancel_iff]
        exact ih

/-- A first character that is no backslash makes no difference to how far a word reaches. -/
theorem scanWord_of_ne {c : Char} (h : c ≠ '\\') (cs : List Char) :
    scanWord c cs = wordTail cs := by
  unfold scanWord
  split <;> simp_all

/-- How far a word reaches behind its first character. -/
theorem scanWord_append_eq_length_iff {c : Char} {text ahead : List Char} :
    scanWord c (text ++ ahead) = text.length ↔
      scanWord c text = text.length ∧ WordEnds ahead ∧
        (dangles (c :: text) = true → ahead = []) := by
  by_cases hc : c = '\\'
  · subst hc
    cases text with
    | nil =>
      cases ahead with
      | nil => simp [scanWord, WordEnds]
      | cons d ds => simp [scanWord, dangles]
    | cons d ds => simpa [scanWord, dangles] using wordTail_append_eq_length_iff
  · have hscan := Token.scanWord_of_ne hc
    rw [hscan, hscan, dangles_cons_of_ne _ hc]
    exact wordTail_append_eq_length_iff

/-! ### Strings, comments and addresses -/

theorem stringTail_escape (quote c : Char) (cs : List Char) :
    stringTail quote ('\\' :: c :: cs) = (stringTail quote cs).map (· + 2) := rfl

theorem stringTail_cons_of_ne {quote c : Char} (cs : List Char) (h : c ≠ '\\') :
    stringTail quote (c :: cs) =
      if c = quote then some 1 else (stringTail quote cs).map (· + 1) := by
  rw [stringTail.eq_def]
  split <;> simp_all

/-- A string is closed by its own text. -/
theorem stringTail_append_iff {quote : Char} {text ahead : List Char} {n : Nat}
    (hn : n ≤ text.length) :
    stringTail quote (text ++ ahead) = some n ↔ stringTail quote text = some n := by
  fun_induction dangles text generalizing n with
  | case1 =>
    obtain rfl : n = 0 := by simpa using hn
    have hpos (cs : List Char) : stringTail quote cs ≠ some 0 := by
      fun_induction stringTail quote cs <;> simp_all
    simp [hpos]
  | case2 =>
    cases ahead with
    | nil => simp
    | cons c cs =>
      rw [List.singleton_append, stringTail_escape]
      simp only [Option.map_eq_some_iff]
      constructor
      · rintro ⟨m, -, rfl⟩
        simp at hn
      · rintro h
        cases h
  | case3 c cs ih =>
    simp only [List.cons_append, stringTail_escape, Option.map_eq_some_iff]
    refine exists_congr fun m => and_congr_left ?_
    rintro rfl
    exact ih (by simpa using hn)
  | case4 c cs hne₁ hne₂ ih =>
    have hc : c ≠ '\\' := ne_backslash hne₁ hne₂
    rw [List.cons_append, stringTail_cons_of_ne _ hc, stringTail_cons_of_ne _ hc]
    split
    · rfl
    · simp only [Option.map_eq_some_iff]
      refine exists_congr fun m => and_congr_left ?_
      rintro rfl
      exact ih (by simpa using hn)

theorem commentTail_cons {c : Char} (cs : List Char) :
    commentTail (c :: cs) =
      if c = '*' ∧ cs.head? = some '/' then some 2 else (commentTail cs).map (· + 1) := by
  rw [commentTail.eq_def]
  split
  · contradiction
  · next hcut => simp_all
  · next hclose hcut =>
    cases hcut
    have hno : ¬(c = '*' ∧ cs.head? = some '/') := by
      rintro ⟨rfl, hhead⟩
      obtain ⟨ds, rfl⟩ := List.head?_eq_some_iff.mp hhead
      exact hclose _ rfl rfl
    rw [if_neg hno]

/-- A comment is closed by its own text. -/
theorem commentTail_append_iff {text ahead : List Char} {n : Nat} (hn : n ≤ text.length) :
    commentTail (text ++ ahead) = some n ↔ commentTail text = some n := by
  induction text generalizing n with
  | nil =>
    obtain rfl : n = 0 := by simpa using hn
    have hpos (cs : List Char) : commentTail cs ≠ some 0 := by
      fun_induction commentTail cs <;> simp_all
    simp [hpos]
  | cons c cs ih =>
    have hlast : cs = [] → n ≠ 2 := by
      rintro rfl rfl
      simp at hn
    have htail : Option.map (· + 1) (commentTail (cs ++ ahead)) = some n ↔
        Option.map (· + 1) (commentTail cs) = some n := by
      simp only [Option.map_eq_some_iff]
      refine exists_congr fun m => and_congr_left ?_
      rintro rfl
      exact ih (by simpa using hn)
    rw [List.cons_append, commentTail_cons, commentTail_cons]
    cases cs with
    | nil =>
      by_cases hclose : c = '*' ∧ ahead.head? = some '/'
      · simp [hclose, commentTail, (hlast rfl).symm]
      · simpa [hclose] using htail
    | cons d ds =>
      rw [List.cons_append, List.head?_cons, List.head?_cons]
      split
      · rfl
      · exact htail

theorem addressTail_escape (c : Char) (cs : List Char) :
    addressTail ('\\' :: c :: cs) = (addressTail cs).map (· + 2) := rfl

theorem addressTail_cons_of_ne {c : Char} (cs : List Char) (h : c ≠ '\\') :
    addressTail (c :: cs) = if c = ')' then some 0 else (addressTail cs).map (· + 1) := by
  rw [addressTail.eq_def]
  split <;> simp_all

/-! ### Passing by

A scan goes over a run of characters that it does not look for. -/

section Run

variable {ds : List Char} (cs : List Char)

theorem wordTail_append_of_forall
    (hds : ∀ d ∈ ds, endsWord d = false ∧ d ≠ '\\' ∧ d ≠ '/') :
    wordTail (ds ++ cs) = wordTail cs + ds.length := by
  induction ds with
  | nil => simp
  | cons d ds ih =>
    obtain ⟨⟨hends, hescape, hslash⟩, hds⟩ := List.forall_mem_cons.mp hds
    have hgoes : ¬(endsWord d = true ∨ (d = '/' ∧ (ds ++ cs).head? = some '*')) := by
      simp [hends, hslash]
    rw [List.cons_append, wordTail_cons_of_ne _ hescape, if_neg hgoes, ih hds]
    rfl

theorem stringTail_append_of_forall {quote : Char} (hds : ∀ d ∈ ds, d ≠ '\\' ∧ d ≠ quote) :
    stringTail quote (ds ++ cs) = (stringTail quote cs).map (· + ds.length) := by
  induction ds with
  | nil => simp
  | cons d ds ih =>
    obtain ⟨⟨hescape, hquote⟩, hds⟩ := List.forall_mem_cons.mp hds
    rw [List.cons_append, stringTail_cons_of_ne _ hescape, if_neg hquote, ih hds, Option.map_map]
    rfl

theorem commentTail_append_of_forall (hds : ∀ d ∈ ds, d ≠ '*') :
    commentTail (ds ++ cs) = (commentTail cs).map (· + ds.length) := by
  induction ds with
  | nil => simp
  | cons d ds ih =>
    obtain ⟨hstar, hds⟩ := List.forall_mem_cons.mp hds
    rw [List.cons_append, commentTail_cons, if_neg fun hclose => hstar hclose.1, ih hds,
      Option.map_map]
    rfl

theorem addressTail_append_of_forall (hds : ∀ d ∈ ds, d ≠ '\\' ∧ d ≠ ')') :
    addressTail (ds ++ cs) = (addressTail cs).map (· + ds.length) := by
  induction ds with
  | nil => simp
  | cons d ds ih =>
    obtain ⟨⟨hescape, hclose⟩, hds⟩ := List.forall_mem_cons.mp hds
    rw [List.cons_append, addressTail_cons_of_ne _ hescape, if_neg hclose, ih hds, Option.map_map]
    rfl

theorem dangles_append_of_forall (hds : ∀ d ∈ ds, d ≠ '\\') : dangles (ds ++ cs) = dangles cs := by
  induction ds with
  | nil => rfl
  | cons d ds ih =>
    obtain ⟨hescape, hds⟩ := List.forall_mem_cons.mp hds
    rw [List.cons_append, dangles_cons_of_ne _ hescape, ih hds]

end Run

/-! ### The end of an address -/

/-- An address is closed by the parenthesis behind it. -/
theorem addressTail_append_eq_length_iff {text ahead : List Char} :
    addressTail (text ++ ahead) = some text.length ↔
      addressTail (text ++ [')']) = some text.length ∧ ahead.head? = some ')' := by
  fun_induction dangles text with
  | case1 =>
    cases ahead with
    | nil => simp [addressTail]
    | cons c cs =>
      by_cases hc : c = '\\'
      · subst hc
        cases cs <;> simp [addressTail]
      · simp [addressTail_cons_of_ne _ hc, addressTail_cons_of_ne, eq_comm]
  | case2 =>
    cases ahead with
    | nil => simp [addressTail]
    | cons c cs => simp [addressTail]
  | case3 c cs ih => simpa [addressTail_escape] using ih
  | case4 c cs hne₁ hne₂ ih =>
    have hc : c ≠ '\\' := ne_backslash hne₁ hne₂
    rw [List.cons_append, addressTail_cons_of_ne _ hc, List.cons_append,
      addressTail_cons_of_ne _ hc]
    by_cases hclose : c = ')'
    · simp [hclose]
    · simpa [hclose] using ih

/-- A first character that is no backslash makes no difference to how far an address reaches. -/
theorem scanAddress_of_ne {c : Char} (h : c ≠ '\\') (cs : List Char) :
    scanAddress c cs = addressTail cs := by
  unfold scanAddress
  split <;> simp_all

/-- How far an address reaches behind its first character. -/
theorem scanAddress_append_eq_length_iff {c : Char} {text ahead : List Char} :
    scanAddress c (text ++ ahead) = some text.length ↔
      scanAddress c (text ++ [')']) = some text.length ∧ ahead.head? = some ')' := by
  by_cases hc : c = '\\'
  · subst hc
    cases text with
    | nil => cases ahead <;> simp [scanAddress]
    | cons d ds => simpa [scanAddress] using addressTail_append_eq_length_iff
  · rw [scanAddress_of_ne hc, scanAddress_of_ne hc]
    exact addressTail_append_eq_length_iff

/-- How far a run of one class of characters reaches. -/
theorem length_takeWhile_append_iff {p : Char → Bool} {text ahead : List Char} :
    ((text ++ ahead).takeWhile p).length = text.length ↔
      (∀ c ∈ text, p c = true) ∧ ∀ c ∈ ahead.head?, p c = false := by
  induction text with
  | nil => cases ahead <;> simp
  | cons c cs ih =>
    rw [List.cons_append]
    cases hc : p c with
    | false => simp [hc]
    | true => simpa [hc] using ih

/-! ### The end of a token -/

/-- **The text ahead ends the token.** -/
def Follows : Mode → Kind → List Char → List Char → Prop
  | .address, _, _, ahead => ahead.head? = some ')'
  | _, .space, _, ahead => ∀ c ∈ ahead.head?, isBlank c = false
  | _, .word, text, ahead => WordEnds ahead ∧ (dangles text = true → ahead = [])
  | _, .atWord, _, ahead => ∀ c ∈ ahead.head?, endsAtWord c = true
  | _, _, _, _ => True

section Follows

variable {mode : Mode} {kind : Kind} {c : Char} {text ahead ahead' : List Char}

theorem follows_space (hmode : mode ≠ .address) :
    Follows mode .space text ahead ↔ ∀ c ∈ ahead.head?, isBlank c = false := by
  cases mode <;> first | contradiction | rfl

theorem follows_word (hmode : mode ≠ .address) :
    Follows mode .word text ahead ↔
      WordEnds ahead ∧ (dangles text = true → ahead = []) := by
  cases mode <;> first | contradiction | rfl

theorem follows_atWord (hmode : mode ≠ .address) :
    Follows mode .atWord text ahead ↔ ∀ c ∈ ahead.head?, endsAtWord c = true := by
  cases mode <;> first | contradiction | rfl

/-- A text that ends a word does not turn a slash into a comment. -/
theorem WordEnds.head_ne_star (h : WordEnds ahead) : ahead.head? ≠ some '*' := by
  intro hhead
  rcases h '*' hhead with h | ⟨h, -⟩
  · simp [endsWord, isBlank] at h
  · cases h

/-- **What lies ahead of a token ends it.** -/
theorem Scans.follows (h : Scans c (text ++ ahead) mode kind text.length) :
    Follows mode kind (c :: text) ahead := by
  generalize hn : text.length = n at h
  cases h with
  | address hreach =>
    rw [← hn] at hreach
    exact (scanAddress_append_eq_length_iff.mp hreach).2
  | space hmode =>
    rw [follows_space hmode]
    exact (length_takeWhile_append_iff.mp hn.symm).2
  | punctuation hmode hkind =>
    unfold punctuation? at hkind
    split at hkind <;> cases hkind <;> cases mode <;> first | contradiction | trivial
  | string hmode => cases mode <;> first | contradiction | trivial
  | atWord hmode =>
    rw [follows_atWord hmode]
    simpa [atWordTail] using (length_takeWhile_append_iff.mp hn.symm).2
  | comment hmode => cases mode <;> first | contradiction | trivial
  | word hmode =>
    rw [follows_word hmode]
    exact (scanWord_append_eq_length_iff.mp hn.symm).2

/-- **A token is read again** in front of any text that ends it. -/
theorem Scans.change (h : Scans c (text ++ ahead) mode kind text.length)
    (hahead : Follows mode kind (c :: text) ahead') :
    Scans c (text ++ ahead') mode kind text.length := by
  generalize hn : text.length = n at h
  cases h with
  | address hreach =>
    rw [← hn] at hreach ⊢
    exact .address (scanAddress_append_eq_length_iff.mpr
      ⟨(scanAddress_append_eq_length_iff.mp hreach).1, hahead⟩)
  | space hmode hblank =>
    rw [follows_space hmode] at hahead
    have hlength := length_takeWhile_append_iff.mpr
      ⟨(length_takeWhile_append_iff.mp hn.symm).1, hahead⟩
    rw [← hn, ← hlength]
    exact .space hmode hblank
  | punctuation hmode hkind => exact .punctuation hmode hkind
  | string hmode hquote hreach =>
    rw [stringTail_append_iff hn.ge] at hreach
    exact .string hmode hquote ((stringTail_append_iff hn.ge).mpr hreach)
  | atWord hmode hat =>
    rw [follows_atWord hmode] at hahead
    have hlength := length_takeWhile_append_iff.mpr
      ⟨(length_takeWhile_append_iff.mp hn.symm).1, by simpa using hahead⟩
    rw [← hn, ← hlength]
    exact .atWord hmode hat
  | @comment _ rest m hmode hslash hstar hreach =>
    obtain ⟨text', rfl⟩ : ∃ text', text = '*' :: text' := by
      cases text with
      | nil => simp at hn
      | cons d ds => exact ⟨ds, congrArg (· :: ds) (List.cons.inj hstar).1⟩
    obtain rfl : text' ++ ahead = rest := by simpa using hstar
    have hm : m ≤ text'.length := by simpa using hn.ge
    rw [commentTail_append_iff hm] at hreach
    exact .comment hmode hslash rfl ((commentTail_append_iff hm).mpr hreach)
  | word hmode hstart =>
    rw [follows_word hmode] at hahead
    have hlength := scanWord_append_eq_length_iff.mpr
      ⟨(scanWord_append_eq_length_iff.mp hn.symm).1, hahead⟩
    rw [← hn, ← hlength]
    obtain ⟨hblank, hkind, hsingle, hdouble, hat, hcomment⟩ := hstart
    refine .word hmode ⟨hblank, hkind, hsingle, hdouble, hat, ?_⟩
    rintro ⟨hslash, hhead⟩
    cases text with
    | nil => exact hahead.1.head_ne_star hhead
    | cons d ds => exact hcomment ⟨hslash, hhead⟩

end Follows

/-- **The text ahead starts like the end of a statement**: with its end, blank space, a semicolon, a
brace or a comment. -/
def Stops (cs : List Char) : Prop :=
  ∀ c ∈ cs.head?, isBlank c = true ∨ c = ';' ∨ c = '\x7b' ∨ c = '\x7d' ∨
    (c = '/' ∧ cs.tail.head? = some '*')

theorem stops_nil : Stops [] := by
  simp [Stops]

theorem stops_cons_of_isBlank {c : Char} (cs : List Char) (h : isBlank c = true) :
    Stops (c :: cs) := by
  simp [Stops, h]

theorem Stops.wordEnds {cs : List Char} (h : Stops cs) : WordEnds cs := by
  intro c hc
  rcases h c hc with hblank | rfl | rfl | rfl | hcomment
  · exact .inl (by simp [endsWord, hblank])
  · exact .inl (by simp [endsWord])
  · exact .inl (by simp [endsWord])
  · exact .inl (by simp [endsWord])
  · exact .inr hcomment

theorem Stops.endsAtWord {cs : List Char} (h : Stops cs) :
    ∀ c ∈ cs.head?, endsAtWord c = true := by
  intro c hc
  rcases h c hc with hblank | rfl | rfl | rfl | ⟨rfl, -⟩
  · simp [Token.endsAtWord, hblank]
  all_goals simp [Token.endsAtWord]

theorem Stops.head_ne_paren {cs : List Char} (h : Stops cs) : cs.head? ≠ some ')' := by
  intro hhead
  rcases h ')' hhead with h | h | h | h | ⟨h, -⟩
  · simp [isBlank] at h
  all_goals cases h

/-- **A token that is no blank space can stand in front of the end of a statement**, unless it is an
address or ends inside an escape. -/
theorem Stops.follows {mode : Mode} {kind : Kind} {text cs : List Char} (h : Stops cs)
    (hmode : mode ≠ .address) (hspace : kind ≠ .space)
    (hdangle : kind = .word → dangles text = true → cs = []) : Follows mode kind text cs := by
  cases kind with
  | space => contradiction
  | word => exact (follows_word hmode).mpr ⟨h.wordEnds, hdangle rfl⟩
  | atWord => exact (follows_atWord hmode).mpr h.endsAtWord
  | _ => cases mode <;> first | contradiction | trivial

/-! ### Words that become one -/

/-- Outside an address a word starts where no other token does. -/
theorem Scans.word_spec {c : Char} {cs : List Char} {mode : Mode} {n : Nat}
    (h : Scans c cs mode .word n) (hmode : mode ≠ .address) :
    StartsWord c cs ∧ scanWord c cs = n := by
  generalize hkind : Kind.word = kind at h
  cases h with
  | word _ hstart => exact ⟨hstart, rfl⟩
  | punctuation _ hpunct => exact absurd hkind.symm (kind_of_punctuation? hpunct).1
  | _ => contradiction

/-- Behind a text that does not end inside an escape a text is what it is alone. -/
theorem dangles_append {text : List Char} (h : dangles text = false) (more : List Char) :
    dangles (text ++ more) = dangles more := by
  fun_induction dangles text with
  | case1 => rfl
  | case2 => cases h
  | case3 d text ih => exact ih h
  | case4 c text hne₁ hne₂ ih =>
    have hc : c ≠ '\\' := Token.ne_backslash hne₁ hne₂
    rw [List.cons_append, dangles_cons_of_ne _ hc, ih h]

/-- **A word goes on** in the text behind it, unless a comment starts at the joint. -/
theorem wordTail_append {text more : List Char} (hword : wordTail text = text.length)
    (hdangle : dangles text = false)
    (hjoint : ¬(text.getLast? = some '/' ∧ more.head? = some '*')) :
    wordTail (text ++ more) = text.length + wordTail more := by
  fun_induction dangles text with
  | case1 => simp
  | case2 => cases hdangle
  | case3 d text ih =>
    have hrest := ih (by simpa [wordTail_escape] using hword) hdangle fun h =>
      hjoint ⟨by simp [List.getLast?_cons, h.1], h.2⟩
    simp only [List.cons_append, wordTail_escape, hrest, List.length_cons]
    omega
  | case4 c text hne₁ hne₂ ih =>
    have hc : c ≠ '\\' := Token.ne_backslash hne₁ hne₂
    rw [wordTail_cons_of_ne _ hc] at hword
    split at hword
    · cases hword
    next hstop =>
    have hstop' : ¬(endsWord c = true ∨ (c = '/' ∧ (text ++ more).head? = some '*')) := by
      rintro (h | ⟨rfl, hstar⟩)
      · exact hstop (.inl h)
      · cases text with
        | nil => exact hjoint ⟨rfl, hstar⟩
        | cons d ds => exact hstop (.inr ⟨rfl, hstar⟩)
    have hrest := ih (by simpa using hword) hdangle fun h =>
      hjoint ⟨by simp [List.getLast?_cons, h.1], h.2⟩
    rw [List.cons_append, wordTail_cons_of_ne _ hc, if_neg hstop', hrest, List.length_cons]
    omega

/-- A word that a word in front of it takes along as a whole. -/
theorem wordTail_of_scanWord {c : Char} {text ahead : List Char}
    (hword : scanWord c text = text.length) (hends : ¬WordEnds (c :: text ++ ahead)) :
    wordTail (c :: text) = (c :: text).length := by
  by_cases hc : c = '\\'
  · subst hc
    cases text with
    | nil => rfl
    | cons d ds =>
      rw [wordTail_escape]
      simpa [scanWord] using hword
  · have hscan : wordTail text = text.length := (Token.scanWord_of_ne hc text).symm.trans hword
    have hstop : ¬(endsWord c = true ∨ (c = '/' ∧ text.head? = some '*')) := by
      intro hstop
      refine hends fun d hd => ?_
      obtain rfl : c = d := by simpa using hd
      refine hstop.imp_right fun hcomment => ⟨hcomment.1, ?_⟩
      simp [List.head?_append, hcomment.2]
    rw [wordTail_cons_of_ne _ hc, if_neg hstop, hscan, List.length_cons]

/-- **Two words that nothing separates are one word**, unless the second one ends a word or a
comment starts at the joint. -/
theorem Scans.join {c d : Char} {text more ahead behind : List Char} {mode mode' : Mode}
    (h : Scans c (text ++ ahead) mode .word text.length) (hmode : mode ≠ .address)
    (hdangle : dangles (c :: text) = false)
    (h' : Scans d (more ++ behind) mode' .word more.length) (hmode' : mode' ≠ .address)
    (hends : ¬WordEnds (d :: more ++ behind))
    (hjoint : ¬((c :: text).getLast? = some '/' ∧ d = '*')) :
    Scans c (text ++ d :: more ++ behind) mode .word (text ++ d :: more).length := by
  obtain ⟨⟨hblank, hkind, hsingle, hdouble, hat, hcomment⟩, hlength⟩ := h.word_spec hmode
  obtain ⟨-, hlength'⟩ := h'.word_spec hmode'
  obtain ⟨hown, -, -⟩ := scanWord_append_eq_length_iff.mp hlength
  obtain ⟨hown', hahead, hdangle'⟩ := scanWord_append_eq_length_iff.mp hlength'
  have htail : wordTail (d :: more) = (d :: more).length := wordTail_of_scanWord hown' hends
  have hwhole : scanWord c (text ++ d :: more) = (text ++ d :: more).length := by
    by_cases hc : c = '\\'
    · subst hc
      cases text with
      | nil => cases hdangle
      | cons e text =>
        have hown'' : wordTail text = text.length := by simpa [scanWord] using hown
        show wordTail (text ++ d :: more) + 1 = _
        rw [wordTail_append hown'' hdangle (fun h => hjoint
          ⟨by simp [List.getLast?_cons, h.1], by simpa using h.2⟩), htail]
        simp only [List.length_append, List.length_cons]
        omega
    · rw [scanWord_of_ne hc] at hown ⊢
      rw [dangles_cons_of_ne _ hc] at hdangle
      rw [wordTail_append hown hdangle (fun h => hjoint
        ⟨by simp [List.getLast?_cons, h.1], by simpa using h.2⟩), htail, List.length_append]
  have hreach : scanWord c (text ++ d :: more ++ behind) = (text ++ d :: more).length := by
    refine scanWord_append_eq_length_iff.mpr ⟨hwhole, hahead, ?_⟩
    rwa [← List.cons_append, dangles_append hdangle]
  rw [← hreach]
  refine .word hmode ⟨hblank, hkind, hsingle, hdouble, hat, ?_⟩
  rintro ⟨rfl, hstar⟩
  cases text with
  | nil => exact hjoint ⟨rfl, by simpa using hstar⟩
  | cons e text => exact hcomment ⟨rfl, hstar⟩

end Token

/-! ### Stretches -/

open Token

/-- **Two texts look the same** to the token in front of them. -/
structure SameStart (cs ds : List Char) : Prop where
  head : cs.head? = ds.head?
  comment : cs.head? = some '/' → (cs.tail.head? = some '*' ↔ ds.tail.head? = some '*')

namespace SameStart

variable {cs ds : List Char}

/-- Behind the same text the start is the same as well. -/
theorem append (h : SameStart cs ds) (text : List Char) :
    SameStart (text ++ cs) (text ++ ds) := by
  cases text with
  | nil => exact h
  | cons c text =>
    refine ⟨rfl, fun _ => ?_⟩
    simp [List.head?_append, h.head]

/-- A text that is not a lone slash hides what stands behind it. -/
theorem of_append {text : List Char} (htext : text ≠ []) (hcs : cs.head? ≠ some '*')
    (hds : ds.head? ≠ some '*') : SameStart (text ++ cs) (text ++ ds) := by
  obtain ⟨c, text, rfl⟩ := List.exists_cons_of_ne_nil htext
  refine ⟨rfl, fun _ => ?_⟩
  cases text <;> simp [hcs, hds]

theorem follows {mode : Mode} {kind : Kind} {text : List Char} (h : SameStart cs ds)
    (hcs : Follows mode kind text cs) : Follows mode kind text ds := by
  have hwords : WordEnds cs → WordEnds ds := by
    intro hends c hc
    rw [← h.head] at hc
    refine (hends c hc).imp_right fun ⟨hslash, hstar⟩ => ⟨hslash, ?_⟩
    exact (h.comment (by rw [hc, hslash])).mp hstar
  have hnil : cs = [] → ds = [] := by
    rintro rfl
    exact List.head?_eq_none_iff.mp h.head.symm
  unfold Follows at hcs ⊢
  split at hcs
  · rwa [← h.head]
  · rwa [← h.head]
  · exact ⟨hwords hcs.1, fun hdangle => hnil (hcs.2 hdangle)⟩
  · rwa [← h.head]
  · trivial

theorem after_eq {mode : Mode} {kind : Kind} {text : List Char} (h : SameStart cs ds) :
    mode.after kind text cs = mode.after kind text ds := by
  rw [Mode.after, Mode.after, h.head]

end SameStart

/-- The word `url`, in any case. -/
def Lexeme.isUrl (l : Lexeme) : Bool :=
  l.kind == .word && Text.eqIgnoringCase l.text ['u', 'r', 'l']

/-- A text with another character is not the word `url`. -/
theorem Lexeme.isUrl_eq_false {kind : Token.Kind} {text : List Char} {c : Char} (hmem : c ∈ text)
    (hc : c.toLower ∉ ['u', 'r', 'l']) : isUrl ⟨kind, text⟩ = false := by
  rw [isUrl, Bool.and_eq_false_iff]
  refine .inr ?_
  rw [Text.eqIgnoringCase, beq_eq_false_iff_ne]
  intro hmap
  have hlower : c.toLower ∈ text.map Char.toLower := List.mem_map_of_mem hmem
  rw [hmap] at hlower
  exact hc (by simpa using hlower)

/-- **The stretch ends in `url(`**, so an unquoted address may start behind it. -/
def Lexeme.opensAddress (ls : List Lexeme) : Bool :=
  ls.getLast?.any (·.kind == .parenOpen) && ls.dropLast.getLast?.any isUrl

/-- Whether an address may start is seen from the last two tokens. -/
theorem Lexeme.opensAddress_append (ls : List Lexeme) {ls' : List Lexeme} (h : 2 ≤ ls'.length) :
    opensAddress (ls ++ ls') = opensAddress ls' := by
  have hne : ls' ≠ [] := by
    rintro rfl
    cases h
  have hne' : ls'.dropLast ≠ [] := by
    intro hnil
    have hlength := congrArg List.length hnil
    rw [List.length_dropLast, List.length_nil] at hlength
    omega
  rw [opensAddress, opensAddress, List.getLast?_append_of_ne_nil _ hne,
    List.dropLast_append_of_ne_nil hne, List.getLast?_append_of_ne_nil _ hne']

namespace Lexes

variable {mode last last' : Mode} {cs ds rest rest' : List Char} {ls ls' : List Lexeme}

/-- **A stretch is read again** in front of a text that looks the same. -/
theorem change_of_sameStart (h : Lexes mode cs rest ls last) (hrest : SameStart rest rest') :
    Lexes mode cs rest' ls last := by
  induction h with
  | nil => exact .nil _ _
  | @cons _ _ _ _ _ cs _ _ hscan _ ih =>
    have hsame := hrest.append cs
    refine .cons (hscan.change (hsame.follows hscan.follows)) ?_
    rw [← hsame.after_eq]
    exact ih hrest

/-- Behind a stretch an address may start if the stretch ends with the word `url`. -/
theorem last_eq_behindUrl_iff (h : Lexes mode cs rest ls last) (hls : ls ≠ []) :
    last = .behindUrl ↔ ls.getLast?.any Lexeme.isUrl = true := by
  induction h with
  | nil => contradiction
  | @cons mode last kind c text cs rest ls hscan htail ih =>
    cases htail with
    | nil =>
      simp only [Mode.after, List.getLast?_singleton, Option.any_some, Lexeme.isUrl,
        Bool.and_eq_true, beq_iff_eq]
      split
      · next hparen => simp [hparen.1]
      · split <;> simp_all
    | cons => simpa using ih (by simp)

/-- **An address starts behind a stretch** exactly if the stretch ends in `url(` and the text ahead
starts like an address. -/
theorem last_eq_address_iff (h : Lexes .plain cs rest ls last) :
    last = .address ↔
      Lexeme.opensAddress ls = true ∧ rest.head?.any startsAddress = true := by
  rcases List.eq_nil_or_concat ls with rfl | ⟨front, l, rfl⟩
  · cases h
    simp [Lexeme.opensAddress]
  · rw [List.concat_eq_append] at h ⊢
    obtain ⟨cs₁, cs₂, middle, rfl, hfront, hlast⟩ := h.exists_of_append
    have hurl : middle = .behindUrl ↔ front.getLast?.any Lexeme.isUrl = true := by
      cases front with
      | nil =>
        cases hfront
        simp
      | cons l ls => exact hfront.last_eq_behindUrl_iff (by simp)
    cases hlast with
    | cons _ htail =>
      cases htail
      simp only [Mode.after, Lexeme.opensAddress, List.getLast?_concat, Option.any_some,
        List.dropLast_concat, Bool.and_eq_true, beq_iff_eq, hurl, List.nil_append]
      split
      · next hparen => simpa [and_assoc] using hparen
      · next hparen => split <;> simp_all

/-- **A stretch is read again** in front of whatever ends its last token, unless that is an
address.  An address starts behind it if the stretch ends in `url(` and the text ahead starts like
one. -/
theorem change_last {l : Lexeme} (h : Lexes .plain cs rest (ls ++ [l]) last)
    (hrest : rest.head? ≠ some '*') (hparen : rest.head? ≠ some ')')
    (hrest' : rest'.head? ≠ some '*')
    (hfollows : ∀ mode, mode ≠ .address → Follows mode l.kind l.text rest →
      Follows mode l.kind l.text rest') :
    ∃ last', Lexes .plain cs rest' (ls ++ [l]) last' ∧
      (last' = .address ↔ Lexeme.opensAddress (ls ++ [l]) = true ∧
        rest'.head?.any startsAddress = true) := by
  obtain ⟨cs₁, cs₂, middle, rfl, hfront, hlast⟩ := h.exists_of_append
  cases hlast with
  | @cons _ _ kind c text cs _ _ hscan htail =>
    cases htail
    have hfront' := hfront.change_of_sameStart (SameStart.of_append (by simp) hrest hrest')
    have hmiddle : middle ≠ .address := by
      rintro rfl
      exact hparen hscan.follows
    have hscan' := hscan.change (hfollows middle hmiddle hscan.follows)
    have hagain := hfront'.append (.cons (by simpa using hscan') (.nil _ _))
    exact ⟨_, hagain, hagain.last_eq_address_iff⟩

/-- **A stretch is read again in front of the end of a statement.** -/
theorem change {l : Lexeme} (h : Lexes .plain cs rest (ls ++ [l]) last) (hrest : Stops rest)
    (hrest' : Stops rest') (hspace : l.kind ≠ .space)
    (hdangle : l.kind = .word → dangles l.text = true → rest' = []) :
    ∃ last', Lexes .plain cs rest' (ls ++ [l]) last' ∧
      (last' = .address ↔ Lexeme.opensAddress (ls ++ [l]) = true ∧
        rest'.head?.any startsAddress = true) :=
  h.change_last hrest.wordEnds.head_ne_star hrest.head_ne_paren hrest'.wordEnds.head_ne_star
    fun _ hmode _ => hrest'.follows hmode hspace hdangle

/-! ### Reading is deterministic -/

/-- What a text is read as determines the mode behind it. -/
theorem last_unique (h : Lexes mode cs rest ls last) (h' : Lexes mode cs rest ls last') :
    last = last' := by
  induction h with
  | nil =>
    cases h'
    rfl
  | @cons _ _ _ c text cs _ _ _ _ ih =>
    generalize hcut : c :: text ++ cs = ds at h'
    cases h' with
    | cons _ htail' =>
      obtain ⟨-, rfl⟩ := List.append_inj hcut rfl
      exact ih htail'

end Lexes

end LosslessCss
