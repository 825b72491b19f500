import LosslessCss.Proofs.Boundaries
import LosslessCss.Proofs.DeclarationTokens
import LosslessCss.Proofs.Importance

/-!
# The mark `!important` in terms of tokens

Whether a declaration is important is decided by the text of its value: by what stands behind the
last `!`.  In terms of tokens this asks for a token with a `!` in it, behind which there are words
and blank space only (`Lexeme.Marked`).  It is a word that starts with the `!`, or an at-word with a
`!` anywhere, since at-words do not end there; a word can also hold the `!` behind a backslash
(`Lexeme.EscapesMark`).  Comments and strings are no part of a mark, so a comment behind the word
hides it.

If an at-word holds no `!`, and all white space is blank space of the lexical grammar, the mark is
what one expects, up to blank space: the word `!important`, or the words `!` and `important`
(`Lexeme.endsMarked`).

## Main Definitions

* `Lexeme.Marked`, `Lexeme.EscapesMark`
* `Lexeme.endsMarked`

## Main Statements

* `important_iff_marked`
* `exists_important_ne_endsMarked` : comments count as tokens, and an escaped `!` is a `!`
-/

namespace LosslessCss

open Token (Mode Scans StartsWord Stops dangles)

/-! ### Marks in texts -/

/-- **A value has a mark** if it ends in one. -/
theorem isSome_splitImportant_iff {value : List Char} :
    (splitImportant value).2.isSome = true ↔
      ∃ front tail, value = front ++ '!' :: tail ∧ IsMark ('!' :: tail) := by
  constructor
  · intro h
    obtain ⟨mark, hmark⟩ := Option.isSome_iff_exists.mp h
    obtain ⟨hvalue, before, behind, word, after, rfl, -, hbehind, hafter, hword⟩ :=
      isMark_of_splitImportant (Prod.ext rfl hmark)
    exact ⟨_ ++ before, _, by rw [List.append_assoc]; exact hvalue,
      [], behind, word, after, rfl, by simp, hbehind, hafter, hword⟩
  · rintro ⟨front, tail, rfl, before, behind, word, after, hcut, hbefore, hbehind, hafter, hword⟩
    cases before with
    | cons c before =>
      obtain ⟨rfl, -⟩ := List.cons.inj hcut
      cases hbefore '!' List.mem_cons_self
    | nil =>
      obtain ⟨-, rfl⟩ := List.cons.inj hcut
      exact (splitImportant_of_mark hbehind hword hafter).2

namespace Lexeme

variable {ls : List Lexeme}

/-- A character of a text stands in one of its lexemes. -/
theorem exists_of_concat_eq {a : Char} {front tail : List Char}
    (h : concat ls = front ++ a :: tail) :
    ∃ ls₀ l ls₁ x y, ls = ls₀ ++ l :: ls₁ ∧ l.text = x ++ a :: y ∧ tail = y ++ concat ls₁ := by
  rcases exists_cut h with ⟨ls₀, ls₁, rfl, -, hback⟩ | ⟨ls₀, l, ls₁, x, y, rfl, hl, -, hy, -, hback⟩
  · induction ls₁ generalizing ls₀ with
    | nil => cases hback
    | cons l ls₁ ih =>
      rw [concat_cons] at hback
      cases htext : l.text with
      | nil =>
        rw [htext, List.nil_append] at hback
        obtain ⟨ls₂, l', ls₃, x, y, hcut, hl', htail⟩ :=
          ih (ls₀ ++ [l]) (by simpa [htext] using h) hback
        exact ⟨ls₂, l', ls₃, x, y, by simpa using hcut, hl', htail⟩
      | cons b y =>
        rw [htext, List.cons_append, List.cons.injEq] at hback
        obtain ⟨rfl, rfl⟩ := hback
        exact ⟨ls₀, l, ls₁, [], y, rfl, htext, rfl⟩
  · obtain ⟨b, y, rfl⟩ := List.exists_cons_of_ne_nil hy
    obtain ⟨rfl, rfl⟩ := List.cons.inj hback
    exact ⟨ls₀, l, ls₁, x, y, rfl, hl, rfl⟩

/-! ### Marks in tokens -/

/-- **The tokens end in a mark**: a word that starts with `!`, or an at-word with a `!`, and behind
it words and blank space, so that what follows the `!` is the word `important` with white space
around it. -/
inductive Marked (ls : List Lexeme) : Prop
  | intro {front behind : List Lexeme} {l : Lexeme} {x y : List Char}
      (hcut : ls = front ++ l :: behind) (htext : l.text = x ++ '!' :: y)
      (hkind : l.kind = .word ∧ x = [] ∨ l.kind = .atWord)
      (hbehind : ∀ l' ∈ behind, l'.kind = .word ∨ l'.kind = .space)
      (hmark : IsMark ('!' :: (y ++ concat behind)))

/-- **The tokens end in a mark whose `!` is escaped.** -/
inductive EscapesMark (ls : List Lexeme) : Prop
  | intro {front behind : List Lexeme} {l : Lexeme} {x y : List Char}
      (hcut : ls = front ++ l :: behind) (htext : l.text = x ++ '!' :: y) (hkind : l.kind = .word)
      (hescape : dangles x = true) (hmark : IsMark ('!' :: (y ++ concat behind)))

/-- Without a backslash nothing is escaped. -/
theorem not_escapesMark (h : ∀ l ∈ ls, '\\' ∉ l.text) : ¬EscapesMark ls := by
  rintro ⟨hcut, htext, -, hescape, -⟩
  rename_i front behind l x y
  refine h l (by simp [hcut]) ?_
  rw [htext]
  exact List.mem_append_left _ (Token.mem_of_dangles hescape)

/-- **The last token is the word `!important`**, or the last two are the words `!` and `important`,
in any case. -/
def endsMarked (ls : List Lexeme) : Bool :=
  let isWord (word : List Char) (l : Lexeme) : Bool :=
    l.kind == .word && Text.eqIgnoringCase l.text word
  ls.getLast?.any (isWord "!important".toList) ||
    ls.getLast?.any (isWord "important".toList) && ls.dropLast.getLast?.any (isWord ['!'])

/-- A mark in the tokens is one in the text. -/
theorem isSome_of_cut {front behind : List Lexeme} {l : Lexeme} {x y : List Char}
    (hcut : ls = front ++ l :: behind) (htext : l.text = x ++ '!' :: y)
    (hmark : IsMark ('!' :: (y ++ concat behind))) :
    (splitImportant (concat ls)).2.isSome = true := by
  refine isSome_splitImportant_iff.mpr ⟨concat front ++ x, y ++ concat behind, ?_, hmark⟩
  rw [hcut, concat_append, concat_cons, htext]
  simp

end Lexeme

/-- A text without punctuation, quotes, `@` and slashes is words and blank space. -/
theorem Lexes.word_or_space {mode last : Mode} {cs rest : List Char} {ls : List Lexeme}
    (h : Lexes mode cs rest ls last)
    (hcs : ∀ c ∈ cs, Token.punctuation? c = none ∧ c ≠ '"' ∧ c ≠ '\'' ∧ c ≠ '@' ∧ c ≠ '/') :
    ∀ l ∈ ls, l.kind = .word ∨ l.kind = .space := by
  induction h with
  | nil => simp
  | @cons mode last kind c text cs rest ls hscan _ ih =>
    refine List.forall_mem_cons.mpr ⟨?_, ih fun d hd => hcs d (List.mem_append_right _ hd)⟩
    obtain ⟨hpunct, hdouble, hsingle, hat, hslash⟩ := hcs c (by simp)
    generalize text.length = n at hscan
    cases hscan with
    | address | word => exact .inl rfl
    | space => exact .inr rfl
    | punctuation _ hkind =>
      rw [hpunct] at hkind
      cases hkind
    | string _ hquote => exact (hquote.elim hsingle hdouble).elim
    | atWord _ h => exact (hat h).elim
    | comment _ h => exact (hslash h).elim

/-- A comment ends in a slash. -/
theorem Token.getLast?_of_spells_comment {text : List Char} (h : Kind.comment.Spells text) :
    text.getLast? = some '/' := by
  obtain ⟨inner, rfl⟩ := h
  have hcut : '/' :: '*' :: (inner ++ ['*', '/']) = '/' :: '*' :: inner ++ ['*'] ++ ['/'] := by
    simp
  rw [hcut, List.getLast?_concat]

/-- **The token that holds the `!` of a mark** is a word or an at-word, in which the `!` stands
first or is escaped. -/
theorem Lexes.marked_or_escapesMark {cs rest x y : List Char} {ls front behind : List Lexeme}
    {l : Lexeme} {last : Mode} (h : Lexes .plain cs rest ls last) (hrest : Stops rest)
    (hcut : ls = front ++ l :: behind) (htext : l.text = x ++ '!' :: y)
    (hmark : IsMark ('!' :: (y ++ Lexeme.concat behind))) :
    Lexeme.Marked ls ∨ Lexeme.EscapesMark ls := by
  subst hcut
  have hplain := hmark.plain
  obtain ⟨cs₁, cs₂, middle, -, -, hlexes⟩ := h.exists_of_append
  have hmode : middle ≠ .address := hlexes.ne_address hrest fun hclose => by
    cases (hplain ')' (by simp [hclose])).1
  cases hlexes with
  | @cons _ _ kind c text cs _ _ hscan htail =>
    obtain rfl := htail.concat_eq
    have hkinds := htail.word_or_space fun d hd => by
      have := hplain d (by simp [hd])
      exact ⟨this.1, this.2.1, this.2.2.1, this.2.2.2.1, this.2.2.2.2.1⟩
    cases x with
    | nil =>
      obtain ⟨rfl, rfl⟩ := List.cons.inj htext
      have hword : StartsWord '!' (text ++ (Lexeme.concat behind ++ rest)) :=
        ⟨rfl, rfl, by decide, by decide, by decide, by simp⟩
      obtain ⟨rfl, -⟩ := hscan.unique (.word hmode hword)
      exact .inl (.intro (x := []) rfl rfl (.inl ⟨rfl, rfl⟩) hkinds hmark)
    | cons d z =>
      obtain ⟨rfl, htail⟩ := List.cons.inj htext
      obtain rfl : text = z ++ '!' :: y := htail
      by_cases hat : kind = .atWord
      · exact .inl (.intro (x := c :: z) rfl rfl (.inr hat) hkinds hmark)
      have hspells := hscan.spells
      rw [List.take_left] at hspells
      have hspace : kind ≠ .space := by
        rintro rfl
        have hblank : Token.isBlank '!' = true := hspells '!' (by simp)
        cases hblank
      have hcomment : kind ≠ .comment := by
        rintro rfl
        have hlast := Token.getLast?_of_spells_comment hspells
        rw [← List.cons_append, List.getLast?_append_of_ne_nil _ (by simp)] at hlast
        have hslash : '/' ∈ '!' :: (y ++ Lexeme.concat behind) := by
          rw [← List.cons_append]
          exact List.mem_append_left _ (List.mem_of_getLast? hlast)
        exact (hplain '/' hslash).2.2.2.2.1 rfl
      have hscan' := hscan.of_mode hmode (show Mode.plain ≠ .address by simp)
      obtain ⟨rfl, hescape, -⟩ := hscan'.dangles_of_endsWord rfl hspace hat hcomment fun d hd => by
        have hd' : d ∈ '!' :: (y ++ Lexeme.concat behind) := by
          rw [← List.cons_append]
          exact List.mem_append_left _ hd
        exact ⟨(hplain d hd').2.1, (hplain d hd').2.2.1⟩
      exact .inr (.intro (x := c :: z) rfl rfl rfl hescape hmark)

/-- **The mark of a value in terms of its tokens.** -/
theorem Lexes.isSome_splitImportant_iff {cs rest : List Char} {ls : List Lexeme} {last : Mode}
    (h : Lexes .plain cs rest ls last) (hrest : Stops rest) :
    (splitImportant cs).2.isSome = true ↔ Lexeme.Marked ls ∨ Lexeme.EscapesMark ls := by
  rw [← h.concat_eq]
  constructor
  · intro hsome
    obtain ⟨front, tail, hvalue, hmark⟩ := LosslessCss.isSome_splitImportant_iff.mp hsome
    obtain ⟨ls₀, l, ls₁, x, y, hcut, hl, rfl⟩ := Lexeme.exists_of_concat_eq hvalue
    exact h.marked_or_escapesMark hrest hcut hl hmark
  · rintro (⟨hcut, htext, -, -, hmark⟩ | ⟨hcut, htext, -, -, hmark⟩)
    · exact Lexeme.isSome_of_cut hcut htext hmark
    · exact Lexeme.isSome_of_cut hcut htext hmark

/-! ### Marks without other white space -/

namespace Lexeme

variable {ls : List Lexeme}

/-- A test of the last element. -/
theorem any_getLast?_iff {p : Lexeme → Bool} :
    ls.getLast?.any p = true ↔ ∃ front l, ls = front ++ [l] ∧ p l = true := by
  rcases List.eq_nil_or_concat ls with rfl | ⟨front, l, rfl⟩
  · simp
  · simp [List.concat_eq_append]

/-- `!important` in any case is a `!` and `important` in any case. -/
theorem eqIgnoringCase_bangImportant_iff {text : List Char} :
    Text.eqIgnoringCase text "!important".toList = true ↔
      ∃ word, text = '!' :: word ∧ IsImportant word := by
  cases text with
  | nil => simp [Text.eqIgnoringCase]
  | cons c text =>
    simp only [Text.eqIgnoringCase, IsImportant, beq_iff_eq, List.map_cons]
    constructor
    · intro h
      obtain ⟨hc, hword⟩ := List.cons.inj (show _ = '!' :: "important".toList from h)
      obtain rfl := Text.eq_of_toLower hc (by decide)
      exact ⟨text, rfl, hword⟩
    · rintro ⟨word, hcut, hword⟩
      obtain ⟨rfl, rfl⟩ := List.cons.inj hcut
      exact congrArg ('!' :: ·) hword

/-- A `!` has no other case. -/
theorem eqIgnoringCase_bang_iff {text : List Char} :
    Text.eqIgnoringCase text ['!'] = true ↔ text = ['!'] := by
  constructor
  · intro h
    obtain ⟨c, rfl, hc⟩ : ∃ c, text = [c] ∧ c.toLower = '!' := by
      simpa [Text.eqIgnoringCase, List.map_eq_singleton_iff] using h
    rw [Text.eq_of_toLower hc (by decide)]
  · rintro rfl
    rfl

/-- **The two ways to end in a mark.** -/
theorem endsMarked_iff : endsMarked ls = true ↔
    (∃ front word, ls = front ++ [⟨.word, '!' :: word⟩] ∧ IsImportant word) ∨
      ∃ front word, ls = front ++ [⟨.word, ['!']⟩, ⟨.word, word⟩] ∧ IsImportant word := by
  simp only [endsMarked, Bool.or_eq_true, Bool.and_eq_true, any_getLast?_iff, beq_iff_eq]
  constructor
  · rintro (⟨front, ⟨kind, text⟩, rfl, rfl, htext⟩ |
      ⟨⟨front, ⟨kind, text⟩, rfl, rfl, htext⟩, front', ⟨kind', text'⟩, hfront, rfl, htext'⟩)
    · obtain ⟨word, rfl, hword⟩ := eqIgnoringCase_bangImportant_iff.mp htext
      exact .inl ⟨front, word, rfl, hword⟩
    · obtain rfl := eqIgnoringCase_bang_iff.mp htext'
      rw [List.dropLast_concat] at hfront
      exact .inr ⟨front', text, by simp [hfront], htext⟩
  · rintro (⟨front, word, rfl, hword⟩ | ⟨front, word, rfl, hword⟩)
    · exact .inl ⟨front, _, rfl, rfl, eqIgnoringCase_bangImportant_iff.mpr ⟨word, rfl, hword⟩⟩
    · refine .inr ⟨⟨front ++ [⟨.word, ['!']⟩], ⟨.word, word⟩, by simp, rfl, hword⟩, front,
        ⟨.word, ['!']⟩, ?_, rfl, rfl⟩
      rw [List.append_cons front, List.dropLast_concat]

end Lexeme

/-- **One word among blank space.**  If a text is cut at its blank space in two ways, and there is
one word in the second, the first has no word in front of its first blank space and no other behind
it. -/
theorem word_unique {p : Char → Bool} {y s w z s₁ word s₂ : List Char}
    (hy : ∀ c ∈ y, p c = false) (hs : ∀ c ∈ s, p c = true) (hsne : s ≠ [])
    (hw : ∀ c ∈ w, p c = false) (hwne : w ≠ []) (hz : ∀ c ∈ z.head?, p c = true)
    (hs₁ : ∀ c ∈ s₁, p c = true) (hword : ∀ c ∈ word, p c = false) (hwordne : word ≠ [])
    (hs₂ : ∀ c ∈ s₂, p c = true) (h : y ++ (s ++ (w ++ z)) = s₁ ++ (word ++ s₂)) :
    y = [] ∧ w = word ∧ z = s₂ := by
  have hhead {cs ds : List Char} {b : Bool} (hcs : ∀ c ∈ cs, p c = b) (hne : cs ≠ []) :
      ∀ c ∈ (cs ++ ds).head?, p c = b := by
    intro c hc
    rw [List.head?_append_of_ne_nil _ hne] at hc
    exact hcs c (List.mem_of_head? hc)
  have hnot {cs : List Char} (hcs : ∀ c ∈ cs, p c = false) : ∀ c ∈ cs, (!p c) = true :=
    fun c hc => by simp [hcs c hc]
  have hnot' {cs : List Char} (hcs : ∀ c ∈ cs.head?, p c = true) :
      ∀ c ∈ cs.head?, (!p c) = false := fun c hc => by simp [hcs c hc]
  have hs₂' : ∀ c ∈ s₂.head?, p c = true := fun c hc => hs₂ c (List.mem_of_head? hc)
  cases y with
  | nil =>
    obtain ⟨-, hrest⟩ := append_inj_of_all hs hs₁ (hhead hw hwne) (hhead hword hwordne) h
    obtain ⟨rfl, rfl⟩ := append_inj_of_all (p := fun c => !p c) (hnot hw) (hnot hword) (hnot' hz)
      (hnot' hs₂') hrest
    exact ⟨rfl, rfl, rfl⟩
  | cons d y =>
    cases s₁ with
    | cons e s₁ =>
      obtain ⟨rfl, -⟩ := List.cons.inj h
      have hboth := (hy d List.mem_cons_self).symm.trans (hs₁ d List.mem_cons_self)
      cases hboth
    | nil =>
      obtain ⟨-, hrest⟩ := append_inj_of_all (p := fun c => !p c) (hnot hy) (hnot hword)
        (hnot' (hhead hs hsne)) (hnot' hs₂') h
      obtain ⟨e, w, rfl⟩ := List.exists_cons_of_ne_nil hwne
      have hboth := (hw e List.mem_cons_self).symm.trans (hs₂ e (by simp [← hrest]))
      cases hboth

/-- A word without a backslash has no blank character. -/
theorem Token.Scans.not_isBlank_of_word {c : Char} {text ahead : List Char} {mode : Mode}
    (h : Scans c (text ++ ahead) mode .word text.length) (hmode : mode ≠ .address)
    (hslash : '\\' ∉ c :: text) : ∀ d ∈ c :: text, isBlank d = false := by
  obtain ⟨hstart, hscan⟩ := h.word_spec hmode
  have hc : c ≠ '\\' := fun hc => hslash (by simp [hc])
  rw [scanWord_of_ne hc] at hscan
  refine List.forall_mem_cons.mpr ⟨hstart.1, fun d hd => ?_⟩
  by_contra hblank
  obtain ⟨z, w, rfl⟩ := List.append_of_mem hd
  have hends : endsWord d = true := by
    simp [endsWord, show isBlank d = true by simpa using hblank]
  have hreach := (wordTail_append_eq_length_iff.mp hscan).1
  exact hslash (List.mem_cons_of_mem _
    (List.mem_append_left _ (mem_of_dangles (dangles_of_wordTail hends hreach).1)))

/-- Words and blank space without a backslash: the blank characters are those of the blank space. -/
theorem Lexes.isBlank_iff_of_mem {mode last : Mode} {cs rest : List Char} {ls : List Lexeme}
    (h : Lexes mode cs rest ls last) (hmode : mode ≠ .address)
    (hkinds : ∀ l ∈ ls, l.kind = .word ∨ l.kind = .space) (hslash : '\\' ∉ cs) :
    ∀ l ∈ ls, l.text ≠ [] ∧ ∀ c ∈ l.text, Token.isBlank c = (l.kind == .space) := by
  induction h with
  | nil => simp
  | @cons mode last kind c text cs rest ls hscan htail ih =>
    obtain ⟨hkind, hkinds⟩ := List.forall_mem_cons.mp hkinds
    have hslash' := not_or.mp (fun h => hslash (List.mem_append.mpr h))
    have hmode' : mode.after kind (c :: text) (cs ++ rest) ≠ .address := by
      rcases hkind with rfl | rfl
      · exact mode.after_ne_address_of_word _ _
      · rw [Mode.after_eq_plain _ _ _ (by simp) (by simp)]
        simp
    refine List.forall_mem_cons.mpr ⟨⟨by simp, ?_⟩, ih hmode' hkinds hslash'.2⟩
    rcases hkind with rfl | rfl
    · exact hscan.not_isBlank_of_word hmode hslash'.1
    · have hspells := hscan.spells
      rw [List.take_left] at hspells
      exact hspells

namespace Lexeme

variable {ls : List Lexeme}

/-- **What ends in a mark up to blank space** ends in a mark. -/
theorem marked_of_endsMarked (hspells : ∀ l ∈ ls, l.kind.Spells l.text)
    (hends : ∀ l ∈ ls.getLast?, l.kind ≠ .space)
    (h : endsMarked (ls.filter (·.kind != .space)) = true) : Marked ls := by
  have hblank {behind : List Lexeme} (hbehind : behind ⊆ ls)
      (hspace : ∀ l ∈ behind, l.kind = .space) :
      ∀ c ∈ concat behind, Text.isWhiteSpace c = true := by
    intro c hc
    obtain ⟨l, hl, hc⟩ := List.mem_flatMap.mp hc
    have hspell := hspells l (hbehind hl)
    rw [hspace l hl] at hspell
    exact Text.isWhiteSpace_of_isBlank (hspell c hc)
  -- Nothing is left out behind the last word, since the last lexeme is no blank space.
  have hlast {front behind : List Lexeme} {l : Lexeme} (hcut : ls = front ++ l :: behind)
      (hbehind : behind.filter (·.kind != .space) = []) : behind = [] := by
    rcases List.eq_nil_or_concat behind with rfl | ⟨behind, l', rfl⟩
    · rfl
    · rw [List.concat_eq_append] at hcut hbehind
      have hspace : l'.kind = .space := by
        simpa using List.filter_eq_nil_iff.mp hbehind l' (by simp)
      have hcut' : ls = front ++ l :: behind ++ [l'] := by simp [hcut]
      exact absurd hspace (hends l' (by rw [hcut', List.getLast?_concat]; rfl))
  rcases endsMarked_iff.mp h with ⟨front, word, hfilter, hword⟩ | ⟨front, word, hfilter, hword⟩
  · obtain ⟨l₁, l₂, rfl, -, hrest⟩ := List.filter_eq_append_iff.mp hfilter
    obtain ⟨l₃, l₄, rfl, -, -, hrest⟩ := List.filter_eq_cons_iff.mp hrest
    obtain rfl := hlast (by rw [← List.append_assoc]) hrest
    exact .intro (x := []) (List.append_assoc ..).symm rfl (.inl ⟨rfl, rfl⟩) (by simp)
      ⟨[], [], word, [], by simp, by simp, by simp, by simp, hword⟩
  · obtain ⟨l₁, l₂, rfl, -, hrest⟩ := List.filter_eq_append_iff.mp hfilter
    obtain ⟨l₃, l₄, rfl, -, -, hrest⟩ := List.filter_eq_cons_iff.mp hrest
    obtain ⟨l₅, l₆, rfl, hspaces, -, hrest⟩ := List.filter_eq_cons_iff.mp hrest
    obtain rfl := hlast (by rw [← List.append_assoc, ← List.cons_append, ← List.append_assoc]) hrest
    replace hspaces : ∀ l ∈ l₅, l.kind = .space := fun l hl => by simpa using hspaces l hl
    refine .intro (x := []) (List.append_assoc ..).symm rfl (.inl ⟨rfl, rfl⟩) ?_
      ⟨[], concat l₅, word, [], by simp, by simp, hblank (fun l hl => ?_) hspaces, by simp, hword⟩
    · intro l hl
      rcases List.mem_append.mp hl with hl | hl
      · exact .inr (hspaces l hl)
      · obtain rfl := List.mem_singleton.mp hl
        exact .inl rfl
    · simp [hl]

/-- Behind a word stands no word that starts with neither `!` nor `#`. -/
theorem Meets.kind_ne_word {l l' : Lexeme} (h : l.Meets l') (hl : l.kind = .word)
    (htext : ∀ c ∈ l'.text, c ≠ '!' ∧ c ≠ '#') : l'.kind ≠ .word := by
  intro hword
  rcases h.2 hl hword with hbang | hnumber
  · exact (htext '!' (List.mem_of_head? hbang)).1 rfl
  · exact (htext '#' (List.mem_of_head? hnumber)).2 rfl

variable {behind : List Lexeme}

/-- Tokens whose text is white space are space tokens, so there are none in front of an end that is
no space. -/
theorem eq_nil_of_isWhiteSpace
    (htext : ∀ l ∈ behind, l.text ≠ [] ∧ ∀ c ∈ l.text, Text.isWhiteSpace c = (l.kind == .space))
    (hends : ∀ l ∈ behind.getLast?, l.kind ≠ .space)
    (hwhite : ∀ c ∈ concat behind, Text.isWhiteSpace c = true) : behind = [] := by
  rcases List.eq_nil_or_concat behind with rfl | ⟨behind, l, rfl⟩
  · rfl
  · rw [List.concat_eq_append] at htext hends hwhite
    obtain ⟨hne, hchars⟩ := htext l (by simp)
    obtain ⟨c, cs, hc⟩ := List.exists_cons_of_ne_nil hne
    have hspace := (hchars c (by simp [hc])).symm.trans (hwhite c (by simp [hc]))
    exact absurd (beq_iff_eq.mp hspace) (hends l (by simp))

/-- **What stands behind the `!`** of a mark, if no word has white space: the word `important` at
once, or blank space and that word. -/
theorem behind_bang {y space word after : List Char}
    (hchain : (⟨.word, '!' :: y⟩ :: behind).IsChain Meets)
    (htext : ∀ l ∈ ⟨.word, '!' :: y⟩ :: behind,
      l.text ≠ [] ∧ ∀ c ∈ l.text, Text.isWhiteSpace c = (l.kind == .space))
    (hkinds : ∀ l ∈ behind, l.kind = .word ∨ l.kind = .space)
    (hends : ∀ l ∈ behind.getLast?, l.kind ≠ .space)
    (hmark : ∀ l ∈ behind, ∀ c ∈ l.text, c ≠ '!' ∧ c ≠ '#')
    (hspace : ∀ c ∈ space, Text.isWhiteSpace c = true)
    (hafter : ∀ c ∈ after, Text.isWhiteSpace c = true) (hword : IsImportant word)
    (h : y ++ concat behind = space ++ (word ++ after)) :
    behind = [] ∧ y = word ∨ y = [] ∧ ∃ s, s.kind = .space ∧ behind = [s, ⟨.word, word⟩] := by
  obtain ⟨hfirst, htext⟩ := List.forall_mem_cons.mp htext
  have hy : ∀ c ∈ y, Text.isWhiteSpace c = false := fun c hc =>
    hfirst.2 c (List.mem_cons_of_mem _ hc)
  have hnil {cs ds : List Char} (hcs : ∀ c ∈ cs, Text.isWhiteSpace c = true)
      (hds : ∀ c ∈ ds, Text.isWhiteSpace c = false) (hsub : cs ⊆ ds) : cs = [] := by
    refine List.eq_nil_iff_forall_not_mem.mpr fun c hc => ?_
    cases (hcs c hc).symm.trans (hds c (hsub hc))
  have hspaceBehind {l l' : Lexeme} (hl : l.kind = .word) (hl' : l' ∈ behind)
      (hmeets : l.Meets l') : l'.kind = .space :=
    (hkinds l' hl').resolve_left (hmeets.kind_ne_word hl (hmark l' hl'))
  cases behind with
  | nil =>
    rw [concat_nil, List.append_nil] at h
    subst h
    obtain rfl := hnil hspace hy (List.subset_append_left _ _)
    obtain rfl := hnil hafter hy fun c hc => by simp [hc]
    exact .inl ⟨rfl, by simp⟩
  | cons s behind =>
    obtain ⟨hmeets, hchain⟩ := List.isChain_cons_cons.mp hchain
    have hs : s.kind = .space := hspaceBehind rfl List.mem_cons_self hmeets
    obtain ⟨⟨hsne, hstext⟩, htext⟩ := List.forall_mem_cons.mp htext
    cases behind with
    | nil => exact absurd hs (hends s rfl)
    | cons w behind =>
      obtain ⟨hmeets', hchain⟩ := List.isChain_cons_cons.mp hchain
      have hw : w.kind = .word := (hkinds w (by simp)).resolve_right fun hw => hmeets'.1 ⟨hs, hw⟩
      obtain ⟨⟨hwne, hwtext⟩, hbehind⟩ := List.forall_mem_cons.mp htext
      have hz : ∀ c ∈ (concat behind).head?, Text.isWhiteSpace c = true := by
        cases behind with
        | nil => simp
        | cons t behind =>
          obtain ⟨hmeets'', -⟩ := List.isChain_cons_cons.mp hchain
          have ht : t.kind = .space := hspaceBehind hw (by simp) hmeets''
          obtain ⟨htne, httext⟩ := hbehind t List.mem_cons_self
          intro c hc
          rw [concat_cons, List.head?_append_of_ne_nil _ htne] at hc
          simpa [ht] using httext c (List.mem_of_head? hc)
      obtain ⟨rfl, rfl, rfl⟩ := word_unique hy (by simpa [hs] using hstext) hsne
        (fun c hc => by rw [hwtext c hc, hw]; rfl) hwne hz hspace
        (fun c hc => hword.isWhiteSpace hc) hword.ne_nil hafter h
      obtain rfl : behind = [] := eq_nil_of_isWhiteSpace hbehind
        (fun l hl => hends l (by simp [List.getLast?_cons, Option.mem_def.mp hl])) hafter
      exact .inr ⟨rfl, s, hs, by rw [← hw]⟩

end Lexeme

/-- The `!` of a mark is its first character, so `important` with white space around it is what
stands behind it. -/
theorem IsMark.of_bang {tail : List Char} (h : IsMark ('!' :: tail)) :
    ∃ space word after, tail = space ++ (word ++ after) ∧
      (∀ c ∈ space, Text.isWhiteSpace c = true) ∧ (∀ c ∈ after, Text.isWhiteSpace c = true) ∧
      IsImportant word := by
  obtain ⟨before, space, word, after, hcut, hbefore, hspace, hafter, hword⟩ := h
  cases before with
  | nil => exact ⟨space, word, after, (List.cons.inj hcut).2, hspace, hafter, hword⟩
  | cons c before =>
    obtain ⟨rfl, -⟩ := List.cons.inj hcut
    cases hbefore '!' List.mem_cons_self

/-- There is one `!` in a mark. -/
theorem IsMark.ne_bang {tail : List Char} (h : IsMark ('!' :: tail)) : ∀ c ∈ tail, c ≠ '!' := by
  obtain ⟨space, word, after, rfl, hspace, hafter, hword⟩ := h.of_bang
  rintro c hc rfl
  simp only [List.mem_append] at hc
  rcases hc with hc | hc | hc
  · cases hspace '!' hc
  · exact hword.ne hc (d := '!') (by decide) rfl
  · cases hafter '!' hc

/-- **Without other white space and without at-words that hold a `!`**, a mark is what one
expects. -/
theorem Lexes.endsMarked_of_marked {cs rest : List Char} {ls : List Lexeme} {last : Mode}
    (h : Lexes .plain cs rest ls last) (hrest : Stops rest)
    (hends : ∀ l ∈ ls.getLast?, l.kind ≠ .space)
    (hwhite : ∀ c ∈ cs, Text.isWhiteSpace c = true → Token.isBlank c = true)
    (hat : ∀ l ∈ ls, l.kind = .atWord → '!' ∉ l.text) (hmarked : Lexeme.Marked ls) :
    Lexeme.endsMarked (ls.filter (·.kind != .space)) = true := by
  obtain ⟨rfl, htext, hkind, hkinds, hmark⟩ := hmarked
  rename_i front behind l x y
  obtain ⟨hword, rfl⟩ := hkind.resolve_right fun hkind => hat l (by simp) hkind (by simp [htext])
  obtain ⟨kind, text⟩ := l
  obtain rfl : kind = .word := hword
  obtain rfl : text = '!' :: y := htext
  obtain ⟨cs₁, cs₂, middle, rfl, -, hlexes⟩ := h.exists_of_append
  have hplain := hmark.plain
  have hcs₂ : '!' :: (y ++ Lexeme.concat behind) = cs₂ := hlexes.concat_eq
  have hmode : middle ≠ .address := hlexes.ne_address hrest fun hclose => by
    cases (hplain ')' (by simp [hclose])).1
  have hblank := hlexes.isBlank_iff_of_mem hmode
    (List.forall_mem_cons.mpr ⟨.inl rfl, hkinds⟩)
    (fun hslash => (hplain '\\' (by rwa [hcs₂])).2.2.2.2.2.2 rfl)
  obtain ⟨space, word, after, hcut, hspace, hafter, himportant⟩ := hmark.of_bang
  have htexts : ∀ l ∈ ⟨.word, '!' :: y⟩ :: behind,
      l.text ≠ [] ∧ ∀ c ∈ l.text, Text.isWhiteSpace c = (l.kind == .space) := by
    intro l hl
    obtain ⟨hne, hchars⟩ := hblank l hl
    refine ⟨hne, fun c hc => ?_⟩
    rw [← hchars c hc, Bool.eq_iff_iff]
    refine ⟨hwhite c (List.mem_append_right _ ?_), Text.isWhiteSpace_of_isBlank⟩
    rw [← hlexes.concat_eq]
    exact List.mem_flatMap.mpr ⟨l, hl, hc⟩
  have hlast : ∀ l ∈ behind.getLast?, l.kind ≠ .space := fun l hl =>
    hends l (by rw [List.getLast?_append, List.getLast?_cons, hl]; rfl)
  have hchars : ∀ l ∈ behind, ∀ c ∈ l.text, c ≠ '!' ∧ c ≠ '#' := by
    intro l hl c hc
    have hmem : c ∈ Lexeme.concat behind := List.mem_flatMap.mpr ⟨l, hl, hc⟩
    exact ⟨hmark.ne_bang c (List.mem_append_right _ hmem), (hplain c (by simp [hmem])).2.2.2.2.2.1⟩
  rcases Lexeme.behind_bang hlexes.isChain_meets htexts hkinds hlast hchars hspace hafter
    himportant hcut with ⟨rfl, rfl⟩ | ⟨rfl, s, hs, rfl⟩
  · exact Lexeme.endsMarked_iff.mpr (.inl ⟨front.filter (·.kind != .space), y, by simp, himportant⟩)
  · exact Lexeme.endsMarked_iff.mpr
      (.inr ⟨front.filter (·.kind != .space), word, by simp [hs], himportant⟩)

/-! ### Declarations -/

/-- The mark of a declaration in terms of the tokens of its value. -/
theorem Node.ValueStands.important_iff {source : Source} {n : Node}
    {front value behind : List Token} (h : n.ValueStands source front value behind)
    {property text : String} {important : Bool}
    (hcontent : n.content = .declaration property text important)
    (hescape : ¬Lexeme.EscapesMark (value.map Token.lexeme)) :
    (important = true ↔ Lexeme.Marked (value.map Token.lexeme)) ∧
      ((∀ t ∈ value, t.kind = .atWord → '!' ∉ t.text.toList) →
        (∀ t ∈ value, ∀ c ∈ t.text.toList, Text.isWhiteSpace c = true → Token.isBlank c = true) →
        (important = true ↔
          Lexeme.endsMarked ((value.filter (!·.isSpace)).map Token.lexeme) = true)) := by
  obtain ⟨last, hlexes⟩ := h.lexes
  obtain ⟨property', hcontent'⟩ := h.content
  obtain rfl : important = (splitImportant (Token.concat value).toList).2.isSome := by
    rw [hcontent] at hcontent'
    injection hcontent'
  have hmarked := hlexes.isSome_splitImportant_iff h.stops
  rw [or_iff_left hescape] at hmarked
  have hends : ∀ l ∈ (value.map Token.lexeme).getLast?, l.kind ≠ .space := by
    intro l hl
    rw [List.getLast?_map] at hl
    obtain ⟨t, ht, rfl⟩ := Option.map_eq_some_iff.mp hl
    simpa [Token.isSpace, Token.lexeme] using h.ends t ht
  have hfilter : (value.filter (!·.isSpace)).map Token.lexeme =
      (value.map Token.lexeme).filter (·.kind != .space) := by
    rw [List.filter_map]
    rfl
  refine ⟨hmarked, fun hat hwhite => hmarked.trans ?_⟩
  rw [hfilter]
  constructor
  · refine hlexes.endsMarked_of_marked h.stops hends (fun c hc => ?_) ?_
    · rw [← hlexes.concat_eq] at hc
      obtain ⟨l, hl, hc⟩ := List.mem_flatMap.mp hc
      obtain ⟨t, ht, rfl⟩ := List.mem_map.mp hl
      exact hwhite t ht c hc
    · intro l hl hkind
      obtain ⟨t, ht, rfl⟩ := List.mem_map.mp hl
      exact hat t ht hkind
  · exact Lexeme.marked_of_endsMarked hlexes.spells hends

/-- **A declaration is important if its tokens end in a mark**, unless they end in one whose `!` is
escaped.  If no at-word holds a `!` and all white space is blank space of the lexical grammar, this
is so if its tokens without blank space end in the word `!important`, or in the words `!` and
`important`. -/
theorem important_iff_marked {source : Source} {t : Tree Node} (h : parse source false = .ok t)
    {n : Node} (hn : n ∈ t.preorder) {property text : String} {important : Bool}
    (hcontent : n.content = .declaration property text important) :
    ∃ span value, n.span = some span ∧
      value = Statement.valueTokens
        (Statement.runAt (tokenize source false).tokens span.start) ∧
      (¬Lexeme.EscapesMark (value.map Token.lexeme) →
        (important = true ↔ Lexeme.Marked (value.map Token.lexeme)) ∧
        ((∀ t ∈ value, t.kind = .atWord → '!' ∉ t.text.toList) →
          (∀ t ∈ value, ∀ c ∈ t.text.toList,
            Text.isWhiteSpace c = true → Token.isBlank c = true) →
          (important = true ↔
            Lexeme.endsMarked ((value.filter (!·.isSpace)).map Token.lexeme) = true))) := by
  have hdeclaration : n.content.isDeclaration = true := by
    rw [hcontent]
    rfl
  obtain ⟨span, front, behind, hspan, hstands⟩ := valueStands_of_parse h hn hdeclaration
  exact ⟨span, _, hspan, rfl, hstands.important_iff hcontent⟩

theorem important_iff_marked_spacedMark :
    ∃ t n, parse { text := "a:b ! IMPORTANT ;" } false = .ok t ∧ n ∈ t.preorder ∧
      n.content = .declaration "a" "b" true ∧
      ∃ span value, n.span = some span ∧
        value = Statement.valueTokens
          (Statement.runAt (tokenize { text := "a:b ! IMPORTANT ;" } false).tokens span.start) ∧
        Lexeme.Marked (value.map Token.lexeme) ∧
        Lexeme.endsMarked ((value.filter (!·.isSpace)).map Token.lexeme) = true := by
  have hrun : (parse { text := "a:b ! IMPORTANT ;" } false).toOption.any (fun t =>
      t.preorder.any fun n => n.content == .declaration "a" "b" true && n.span.all fun span =>
        (Statement.valueTokens (Statement.runAt
          (tokenize { text := "a:b ! IMPORTANT ;" } false).tokens span.start)).all fun u =>
            u.kind != .atWord && u.text.toList.all fun c =>
              c != '\\' && (!Text.isWhiteSpace c || Token.isBlank c)) = true := by
    decide +kernel
  obtain ⟨t, ht, hany⟩ := exists_ok_of_any hrun
  obtain ⟨n, hn, hboth⟩ := List.any_eq_true.mp hany
  obtain ⟨hcontent, hplain⟩ := Bool.and_eq_true_iff.mp hboth
  rw [beq_iff_eq] at hcontent
  obtain ⟨span, value, hspan, hvalue, hiff⟩ := important_iff_marked ht hn hcontent
  rw [hspan, Option.all_some, ← hvalue] at hplain
  simp only [List.all_eq_true, Bool.and_eq_true, Bool.or_eq_true, bne_iff_ne] at hplain
  obtain ⟨hmarked, hends⟩ := hiff (Lexeme.not_escapesMark fun l hl => by
    obtain ⟨u, hu, rfl⟩ := List.mem_map.mp hl
    exact fun hslash => (hplain u hu).2 _ hslash |>.1 rfl)
  refine ⟨t, n, ht, hn, hcontent, span, value, hspan, hvalue, hmarked.mp rfl, ?_⟩
  refine (hends (fun u hu hkind => absurd hkind (hplain u hu).1) fun u hu c hc hwhite => ?_).mp rfl
  exact ((hplain u hu).2 c hc).2.resolve_left (by simp [hwhite])

/-- **A mark is not recognised as one expects.**  A comment behind the word hides it, and a `!` that
is escaped marks the declaration nonetheless. -/
theorem exists_important_ne_endsMarked :
    (∃ t n span, parse { text := "a:b !important/**/" } false = .ok t ∧ n ∈ t.preorder ∧
      n.span = some span ∧ n.content = .declaration "a" "b !important/**/" false ∧
      Lexeme.endsMarked (((Statement.valueTokens (Statement.runAt
        (tokenize { text := "a:b !important/**/" } false).tokens span.start)).filter
          (!·.isTrivia)).map Token.lexeme) = true) ∧
    ∃ t n span, parse { text := "a:b\\!important" } false = .ok t ∧ n ∈ t.preorder ∧
      n.span = some span ∧ n.content = .declaration "a" "b\\" true ∧
      Lexeme.endsMarked (((Statement.valueTokens (Statement.runAt
        (tokenize { text := "a:b\\!important" } false).tokens span.start)).filter
          (!·.isTrivia)).map Token.lexeme) = false := by
  have hexists {source : Source} {c : Content} {marked : Bool}
      (h : (parse source false).toOption.any (fun t => t.preorder.any fun n =>
        n.content == c && n.span.any fun span => Lexeme.endsMarked (((Statement.valueTokens
          (Statement.runAt (tokenize source false).tokens span.start)).filter
            (!·.isTrivia)).map Token.lexeme) == marked) = true) :
      ∃ t n span, parse source false = .ok t ∧ n ∈ t.preorder ∧ n.span = some span ∧
        n.content = c ∧ Lexeme.endsMarked (((Statement.valueTokens (Statement.runAt
          (tokenize source false).tokens span.start)).filter
            (!·.isTrivia)).map Token.lexeme) = marked := by
    obtain ⟨t, ht, hany⟩ := exists_ok_of_any h
    obtain ⟨n, hn, hboth⟩ := List.any_eq_true.mp hany
    obtain ⟨hcontent, hspan⟩ := Bool.and_eq_true_iff.mp hboth
    obtain ⟨span, hspan, hmarked⟩ := (Option.any_eq_true _ _).mp hspan
    exact ⟨t, n, span, ht, hn, hspan, beq_iff_eq.mp hcontent, beq_iff_eq.mp hmarked⟩
  exact ⟨hexists (by decide +kernel), hexists (by decide +kernel)⟩

end LosslessCss
