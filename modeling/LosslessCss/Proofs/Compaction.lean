import LosslessCss.Value.Compact
import LosslessCss.Proofs.Cutting
import LosslessCss.Proofs.Stretches

/-!
# Compaction as the lexical grammar sees it

Compaction works on characters: it leaves out comments and most blank space.  The lexical grammar
sees that as an operation on tokens.  Each token that is no trivia is written as it is, and of the
trivia in front of it at most one space is left (`Lexeme.compact`).

Where a space goes, two words can become one.  That happens only next to a comma, or next to an
escaped punctuation mark, so no word `url` comes about, and everything that structures a statement
stays: the parentheses, brackets, colons, semicolons and braces, in their order.

## Main Definitions

* `Plainly` : a stretch is read without addresses and at-words
* `Lexeme.compact` : compaction of a run of lexemes
* `Lexeme.marks` : the kinds that structure a statement, in order
* `Lexeme.Compacts` : a run and what its compact form is read as

## Main Statements

* `Plainly.write_units` : the compact form of a text is the compact form of its lexemes
* `Plainly.exists_compacts` : how the compact form is read
-/

namespace LosslessCss

open Token (Scans WordEnds Follows StartsWord dangles wordTail scanWord isBlank endsWord)
open Value (Compact.Tightness)

/-! ### Stretches without addresses -/

/-- **A stretch is read as lexemes** among which there is neither an at-word nor the word `url`, so
no address starts in it or behind it. -/
inductive Plainly (behind : List Char) : List Char → List Lexeme → Prop
  | nil : Plainly behind [] []
  | cons {kind : Token.Kind} {c : Char} {text cs : List Char} {ls : List Lexeme}
      (hscan : Scans c (text ++ (cs ++ behind)) .plain kind text.length) (hat : kind ≠ .atWord)
      (hurl : Lexeme.isUrl ⟨kind, c :: text⟩ = false) (htail : Plainly behind cs ls) :
      Plainly behind (c :: text ++ cs) (⟨kind, c :: text⟩ :: ls)

/-- Behind any other token than the word `url` nothing special is expected. -/
theorem Token.Mode.after_of_not_isUrl {kind : Token.Kind} {text rest : List Char}
    (hurl : Lexeme.isUrl ⟨kind, text⟩ = false) :
    Token.Mode.plain.after kind text rest = .plain := by
  simp only [Lexeme.isUrl, Bool.and_eq_false_iff, beq_eq_false_iff_ne] at hurl
  rw [Token.Mode.after, if_neg (by simp), if_neg]
  rintro ⟨rfl, htext⟩
  rcases hurl with h | h
  · exact h rfl
  · rw [h] at htext
    cases htext

namespace Plainly

variable {behind behind' text : List Char} {ls : List Lexeme}

theorem lexes (h : Plainly behind text ls) : Lexes .plain text behind ls .plain := by
  induction h with
  | nil => exact .nil _ _
  | cons hscan _ hurl _ ih =>
    refine .cons hscan ?_
    rwa [Token.Mode.after_of_not_isUrl hurl]

theorem of_lexes {last : Token.Mode} (h : Lexes .plain text behind ls last)
    (hls : ∀ l ∈ ls, l.kind ≠ .atWord ∧ l.isUrl = false) : Plainly behind text ls := by
  generalize hmode : Token.Mode.plain = mode at h
  induction h with
  | nil => exact .nil
  | cons hscan _ ih =>
    subst hmode
    obtain ⟨hat, hurl⟩ := hls _ List.mem_cons_self
    rw [Token.Mode.after_of_not_isUrl hurl] at ih
    exact .cons hscan hat hurl (ih (fun l hl => hls l (List.mem_cons_of_mem _ hl)) rfl)

end Plainly

/-! ### Compaction of lexemes -/

/-- **The compact form of a run of lexemes**, behind a text that ends with `last`; `separated` tells
whether trivia stands in front. -/
def Lexeme.compact (tight : Compact.Tightness) (last : Option Char) (separated : Bool) :
    List Lexeme → List Char
  | [] => []
  | l :: ls =>
    if l.kind.isTrivia then compact tight last true ls
    else
      (if separated && tight.spaces last l.text.head? then [' '] else []) ++ l.text ++
        compact tight l.text.getLast? false ls

section Units

open Value Compact

variable {tight : Tightness} {last : Option Char} {separated : Bool}

/-- No separator starts with a character that is no white space and opens no comment. -/
theorem separatorTail?_eq_none_iff {c : Char} {cs : List Char} :
    separatorTail? c cs = none ↔
      Text.isWhiteSpace c = false ∧ ¬(c = '/' ∧ cs.head? = some '*') := by
  rw [separatorTail?]
  split
  · simp_all
  split
  · simp_all
  · simp_all

theorem units_of_isWhiteSpace {c : Char} (cs : List Char) (h : Text.isWhiteSpace c = true) :
    units separated (c :: cs) = units true cs := by
  rw [units, separatorTail?, if_pos h]
  rfl

/-- White space separates. -/
theorem units_append_of_isWhiteSpace {blank : List Char} (cs : List Char) (hne : blank ≠ [])
    (h : ∀ c ∈ blank, Text.isWhiteSpace c = true) :
    units separated (blank ++ cs) = units true cs := by
  induction blank generalizing separated with
  | nil => contradiction
  | cons c blank ih =>
    rw [List.cons_append, units_of_isWhiteSpace _ (h c List.mem_cons_self)]
    cases blank with
    | nil => rfl
    | cons d blank => exact ih (by simp) fun e he => h e (List.mem_cons_of_mem c he)

/-- A comment separates. -/
theorem units_comment {inner : List Char}
    (hinner : Token.commentTail (inner ++ ['*', '/']) = some (inner.length + 2)) (cs : List Char) :
    units separated ('/' :: '*' :: (inner ++ ['*', '/'] ++ cs)) = units true cs := by
  have hreach : Token.commentTail (inner ++ ['*', '/'] ++ cs) = some (inner.length + 2) :=
    (Token.commentTail_append_iff (by simp)).mpr hinner
  have hlength : commentLength (inner ++ ['*', '/'] ++ cs) = (inner ++ ['*', '/']).length := by
    rw [commentLength, hreach]
    simp
  have htail : separatorTail? '/' ('*' :: (inner ++ ['*', '/'] ++ cs)) =
      some ((inner ++ ['*', '/']).length + 1) := by
    rw [separatorTail?, if_neg (by decide), if_pos ⟨rfl, rfl⟩, List.tail_cons, hlength]
  rw [units, htail]
  dsimp only
  rw [List.drop_succ_cons, List.drop_left]

/-- A character that is no separator starts a unit. -/
theorem units_of_unit (separated : Bool) (c : Char) (text cs : List Char)
    (hwhite : Text.isWhiteSpace c = false)
    (hcomment : ¬(c = '/' ∧ (text ++ cs).head? = some '*'))
    (hlength : unitTail c (text ++ cs) = text.length) :
    units separated (c :: (text ++ cs)) = ⟨separated, c :: text⟩ :: units false cs := by
  rw [units, separatorTail?_eq_none_iff.mpr ⟨hwhite, hcomment⟩]
  dsimp only
  rw [hlength, List.take_left, List.drop_left]

/-- A unit is written as it is. -/
theorem write_unit (text cs : List Char) :
    write tight last (⟨separated, text⟩ :: units false cs) =
      (if separated && tight.spaces last text.head? then [' '] else []) ++ text ++
        write tight text.getLast? (units false cs) := rfl

/-- The last character of a longer text. -/
theorem getLast?_cons_or {c : Char} (text : List Char) (last : Option Char) :
    text.getLast?.or (some c) = (c :: text).getLast?.or last := by
  rw [List.getLast?_cons]
  cases text.getLast? <;> rfl

/-- A word is a sequence of units. -/
theorem write_units_wordTail (tight : Tightness) (last : Option Char) (text : List Char)
    {cs : List Char} (hword : wordTail text = text.length)
    (hdangle : dangles text = true → cs = [])
    (hwhite : ∀ c ∈ text, Text.isWhiteSpace c = true → isBlank c = true)
    (hcs : cs.head? ≠ some '*') :
    write tight last (units false (text ++ cs)) =
      text ++ write tight (text.getLast?.or last) (units false cs) := by
  fun_induction dangles text generalizing last with
  | case1 => simp
  | case2 =>
    obtain rfl := hdangle rfl
    simp [units, write, separatorTail?, unitTail, show Text.isWhiteSpace '\\' = false from rfl]
  | case3 d text ih =>
    have hunit := units_of_unit false '\\' [d] (text ++ cs)
      rfl (by simp) (by simp [unitTail])
    rw [Token.wordTail_escape] at hword
    have hrest := @ih (some d) (by simpa using hword) hdangle
      fun e he => hwhite e (List.mem_cons_of_mem _ (List.mem_cons_of_mem _ he))
    rw [show '\\' :: d :: text ++ cs = '\\' :: ([d] ++ (text ++ cs)) from rfl, hunit, write_unit]
    rw [show ['\\', d].getLast? = some d from rfl, hrest, getLast?_cons_or text ('\\' : Char),
      getLast?_cons_or (d :: text) last]
    simp
  | case4 c text hne₁ hne₂ ih =>
    have hc : c ≠ '\\' := Token.ne_backslash hne₁ hne₂
    rw [Token.wordTail_cons_of_ne _ hc] at hword
    split at hword
    · cases hword
    next hstop =>
    obtain ⟨hends, hslash⟩ := not_or.mp hstop
    have hblank : Text.isWhiteSpace c = false := by
      by_contra hblank
      exact hends (by simp [endsWord, hwhite c List.mem_cons_self (by simpa using hblank)])
    have hcomment : ¬(c = '/' ∧ ([] ++ (text ++ cs)).head? = some '*') := by
      rintro ⟨hc, hstar⟩
      cases text with
      | nil => exact hcs hstar
      | cons d ds => exact hslash ⟨hc, hstar⟩
    have hquote : isQuote c = false := by
      by_contra hquote
      have heither : c = '"' ∨ c = '\'' := by simpa [isQuote, or_iff_not_imp_left] using hquote
      rcases heither with rfl | rfl
      all_goals exact hends rfl
    have hunit := units_of_unit false c [] (text ++ cs) hblank hcomment
      (by simp [unitTail, hc, hquote])
    have hrest := @ih (some c) (by simpa using hword) hdangle
      fun e he => hwhite e (List.mem_cons_of_mem _ he)
    rw [List.cons_append, ← List.nil_append (text ++ cs), hunit, write_unit]
    rw [show [c].getLast? = some c from rfl, hrest, getLast?_cons_or text last]
    simp

/-- **A word** is written as it is. -/
theorem write_units_word {c : Char} {text cs : List Char} (hstart : StartsWord c (text ++ cs))
    (hword : scanWord c text = text.length) (hdangle : dangles (c :: text) = true → cs = [])
    (hwhite : ∀ d ∈ c :: text, Text.isWhiteSpace d = true → isBlank d = true)
    (hcs : cs.head? ≠ some '*') :
    write tight last (units separated (c :: text ++ cs)) =
      (if separated && tight.spaces last (some c) then [' '] else []) ++ (c :: text) ++
        write tight (c :: text).getLast? (units false cs) := by
  obtain ⟨hblank, -, hsingle, hdouble, -, hcomment⟩ := hstart
  by_cases hc : c = '\\'
  · subst hc
    cases text with
    | nil =>
      obtain rfl := hdangle rfl
      simp [units, write, separatorTail?, unitTail, show Text.isWhiteSpace '\\' = false from rfl]
    | cons d text =>
      have hunit := units_of_unit separated '\\' [d] (text ++ cs) rfl (by simp) (by simp [unitTail])
      have hrest := write_units_wordTail tight (some d) text
        (by simpa [scanWord] using hword) hdangle
        (fun e he => hwhite e (List.mem_cons_of_mem _ (List.mem_cons_of_mem _ he))) hcs
      rw [show '\\' :: d :: text ++ cs = '\\' :: ([d] ++ (text ++ cs)) from rfl, hunit, write_unit]
      rw [show ['\\', d].getLast? = some d from rfl, hrest, getLast?_cons_or text none,
        List.getLast?_cons_cons, Option.or_none]
      simp
  · have hscan : wordTail text = text.length := (Token.scanWord_of_ne hc text).symm.trans hword
    have hwhite' : Text.isWhiteSpace c = false := by
      by_contra h
      rw [hwhite c List.mem_cons_self (by simpa using h)] at hblank
      cases hblank
    have hunit := units_of_unit separated c [] (text ++ cs)
      hwhite' hcomment (by simp [unitTail, hc, isQuote, hsingle, hdouble])
    have hrest := write_units_wordTail tight (some c) text
      hscan (by rwa [Token.dangles_cons_of_ne _ hc] at hdangle)
      (fun e he => hwhite e (List.mem_cons_of_mem _ he)) hcs
    rw [List.cons_append, ← List.nil_append (text ++ cs), hunit, write_unit]
    rw [show [c].getLast? = some c from rfl, hrest, getLast?_cons_or text none, Option.or_none]
    simp

end Units

open Value.Compact in
/-- **The compact form of a text** is the compact form of its lexemes. -/
theorem Plainly.write_units {behind text : List Char} {ls : List Lexeme}
    (h : Plainly behind text ls)
    (hwhite : ∀ c ∈ text, Text.isWhiteSpace c = true → isBlank c = true) (tight : Tightness)
    (last : Option Char) (separated : Bool) :
    write tight last (units separated text) = Lexeme.compact tight last separated ls := by
  induction h generalizing last separated with
  | nil => simp [units, write, Lexeme.compact]
  | @cons kind c text cs ls hscan hat hurl htail ih =>
    have hrest := ih fun d hd => hwhite d (List.mem_append_right _ hd)
    have hown : ∀ d ∈ c :: text, Text.isWhiteSpace d = true → isBlank d = true :=
      fun d hd => hwhite d (List.mem_append_left _ hd)
    have hspells := hscan.spells
    have hscan' := id hscan
    generalize hn : text.length = n at hscan
    cases hscan with
    | space _ hblank =>
      have hall : ∀ d ∈ c :: text, Text.isWhiteSpace d = true := by
        rw [List.take_left] at hspells
        exact fun d hd => Text.isWhiteSpace_of_isBlank (hspells d hd)
      rw [units_append_of_isWhiteSpace _ (by simp) hall, hrest]
      simp [Lexeme.compact, Token.Kind.isTrivia]
    | punctuation _ hkind =>
      obtain rfl := List.length_eq_zero_iff.mp hn
      have hblank : Text.isWhiteSpace c = false := by
        by_contra h
        have := hown c List.mem_cons_self (by simpa using h)
        rw [Token.isBlank_of_punctuation? hkind] at this
        cases this
      have hne (d : Char) (hd : Token.punctuation? d = none) : c ≠ d := by
        rintro rfl
        rw [hd] at hkind
        cases hkind
      have hunit := units_of_unit separated c [] cs hblank
        (fun h => hne '/' rfl h.1)
        (by simp [unitTail, hne '\\' rfl, Value.isQuote, hne '"' rfl, hne '\'' rfl])
      have htrivia := (Token.kind_of_punctuation? hkind).2.2.2
      rw [List.cons_append, hunit, write_unit, hrest]
      simp [Lexeme.compact, htrivia]
    | string _ hquote hreach =>
      rw [← hn, Token.stringTail_append_iff le_rfl] at hreach
      have hunit := units_of_unit separated c text cs
        (by rcases hquote with rfl | rfl <;> rfl) (by rcases hquote with rfl | rfl <;> simp)
        (by
          rw [unitTail, if_neg (by rcases hquote with rfl | rfl <;> simp),
            if_pos (by rcases hquote with rfl | rfl <;> rfl)]
          exact Value.quotedTail_append hreach cs)
      rw [List.cons_append, hunit, write_unit, hrest]
      simp [Lexeme.compact, Token.Kind.isTrivia]
    | atWord => contradiction
    | comment =>
      obtain ⟨inner, htext, hinner⟩ := hscan'.exists_inner
      rw [htext]
      rw [show '/' :: '*' :: (inner ++ ['*', '/']) ++ cs =
        '/' :: '*' :: (inner ++ ['*', '/'] ++ cs) from rfl, units_comment hinner, hrest]
      simp [Lexeme.compact, Token.Kind.isTrivia]
    | word hmode hstart =>
      obtain ⟨hword, hends, hdangle⟩ := Token.scanWord_append_eq_length_iff.mp hn.symm
      have hhead : cs.head? ≠ some '*' := fun hstar =>
        hends.head_ne_star (by simp [List.head?_append, hstar])
      have hstart' : StartsWord c (text ++ cs) := by
        refine ⟨hstart.1, hstart.2.1, hstart.2.2.1, hstart.2.2.2.1, hstart.2.2.2.2.1, ?_⟩
        rintro ⟨hslash, hstar⟩
        refine hstart.2.2.2.2.2 ⟨hslash, ?_⟩
        rw [← List.append_assoc, List.head?_append, hstar, Option.some_or]
      rw [write_units_word hstart' hword
        (fun h => (List.append_eq_nil_iff.mp (hdangle h)).1) hown hhead, hrest]
      simp [Lexeme.compact, Token.Kind.isTrivia]

/-! ### How the compact form is read -/

/-- **A note on tight punctuation.**  None of it is part of the word `url` or of the marks of a
comment, so no such word and no comment comes about where it joins two words. -/
def Value.Compact.Tightness.Harmless (tight : Tightness) : Prop :=
  ∀ c ∈ tight.before ++ tight.behind, c ≠ '/' ∧ c ≠ '*' ∧ c.toLower ∉ ['u', 'r', 'l']

theorem Value.Compact.selectorTightness_harmless : selectorTightness.Harmless := by
  simp only [Tightness.Harmless, selectorTightness, List.cons_append, List.nil_append,
    List.forall_mem_cons]
  simp [Char.toLower]

theorem Value.Compact.valueTightness_harmless : valueTightness.Harmless := by
  simp only [Tightness.Harmless, valueTightness, List.cons_append, List.nil_append,
    List.forall_mem_cons]
  simp [Char.toLower]

/-- Tokens of the kind structure statements. -/
def Token.Kind.isMark : Kind → Bool
  | .parenOpen | .parenClose | .bracketOpen | .bracketClose | .semicolon | .braceOpen
  | .braceClose => true
  | _ => false

namespace Lexeme

/-- **The kinds that structure a statement**, in order. -/
def marks (ls : List Lexeme) : List Token.Kind := (ls.map kind).filter Token.Kind.isMark

@[simp]
theorem marks_nil : marks [] = [] := rfl

theorem marks_cons_of_not_isMark {l : Lexeme} (ls : List Lexeme) (h : l.kind.isMark = false) :
    marks (l :: ls) = marks ls := by
  simp [marks, h]

theorem marks_append (ls ls' : List Lexeme) : marks (ls ++ ls') = marks ls ++ marks ls' := by
  simp [marks]

/-- **Only marks count** for how many parentheses and brackets are open. -/
theorem depth?_filter_isMark (depth : Nat) (ks : List Token.Kind) :
    Statement.depth? depth (ks.filter Token.Kind.isMark) = Statement.depth? depth ks := by
  induction ks generalizing depth with
  | nil => rfl
  | cons k ks ih =>
    cases k <;> simp [List.filter_cons, Token.Kind.isMark, Statement.depth?,
      Token.Kind.continuesStatement, Token.Kind.depthBehind, ih]

/-- The first lexeme that is no trivia. -/
def lead? (ls : List Lexeme) : Option Token.Kind := (ls.map kind).find? (!·.isTrivia)

end Lexeme

/-- **A run and what its compact form is read as.**  The structure stays, and blank space is neither
at the start nor at the end. -/
structure Lexeme.Compacts (ls ls' : List Lexeme) : Prop where
  marks : marks ls' = marks ls
  ends : ∀ l ∈ ls'.getLast?, l.kind ≠ .space

namespace Plainly

variable {tight : Value.Compact.Tightness} {behind behind' text : List Char} {ls : List Lexeme}
  {last : Option Char} {separated : Bool}

theorem text_ne_nil (h : Plainly behind text ls) : ∀ l ∈ ls, l.text ≠ [] := by
  induction h with
  | nil => simp
  | cons _ _ _ _ ih => simpa using ih

/-- A space in front of what is not blank. -/
theorem space {c : Char} (h : Plainly behind (c :: text) ls) (hc : isBlank c = false) :
    Plainly behind (' ' :: c :: text) (⟨.space, [' ']⟩ :: ls) := by
  have hscan : Scans ' ' ([] ++ (c :: text ++ behind)) .plain .space ([] : List Char).length := by
    have : Scans ' ' (c :: text ++ behind) .plain .space _ := .space (by simp) rfl
    simpa [hc] using this
  exact .cons hscan (by simp) rfl h

/-- What stands behind trivia in the compact form. -/
theorem compact_separated (tight : Value.Compact.Tightness) (b : Char) {ls : List Lexeme}
    (hls : ∀ l ∈ ls, l.text ≠ []) :
    Lexeme.compact tight (some b) true ls = [] ∨
      (Lexeme.compact tight (some b) true ls).head? = some ' ' ∨ b ∈ tight.behind ∨
        ∃ d ∈ tight.before, (Lexeme.compact tight (some b) true ls).head? = some d := by
  induction ls with
  | nil => exact .inl rfl
  | cons l ls ih =>
    obtain ⟨hl, hls⟩ := List.forall_mem_cons.mp hls
    rw [Lexeme.compact]
    split
    · exact ih hls
    · obtain ⟨d, text, htext⟩ := List.exists_cons_of_ne_nil hl
      rw [htext]
      cases hspace : tight.spaces (some b) (d :: text).head? with
      | true => exact .inr (.inl (by simp))
      | false =>
        refine .inr (.inr ?_)
        by_cases hb : b ∈ tight.behind
        · exact .inl hb
        · refine .inr ⟨d, ?_, by simp⟩
          simpa [Value.Compact.Tightness.spaces, hb] using hspace

/-- **Where a word loses its end**, tight punctuation stands at the joint. -/
theorem joint (h : Plainly behind text ls) {b : Char} (hends : WordEnds (text ++ behind))
    (hbehind : WordEnds behind') :
    WordEnds (Lexeme.compact tight (some b) false ls ++ behind') ∨ b ∈ tight.behind ∨
      ∃ d ∈ tight.before, (Lexeme.compact tight (some b) false ls).head? = some d := by
  cases h with
  | nil => exact .inl hbehind
  | @cons kind c text cs ls hscan hat hurl htail =>
    rw [Lexeme.compact]
    split
    · have hseparated := compact_separated tight b htail.text_ne_nil
      rcases hseparated with hnil | hspace | hjoint
      · rw [hnil]
        exact .inl hbehind
      · refine .inl fun d hd => ?_
        rw [List.head?_append, hspace, Option.some_or] at hd
        cases hd
        exact .inl rfl
      · exact .inr hjoint
    · next htrivia =>
      refine .inl fun d hd => ?_
      obtain rfl : c = d := by simpa using hd
      rcases hends c (by simp) with hword | ⟨hslash, hstar⟩
      · exact .inl hword
      · -- A comment would start here.
        subst hslash
        have hcomment : kind = .comment := by
          have hstar' : (text ++ (cs ++ behind)).head? = some '*' := by simpa using hstar
          generalize text.length = n at hscan
          cases hscan with
          | space _ hblank => cases hblank
          | punctuation _ hkind => cases hkind
          | string _ hquote => rcases hquote with h | h <;> cases h
          | atWord => contradiction
          | comment => rfl
          | word _ hstart => exact (hstart.2.2.2.2.2 ⟨rfl, hstar'⟩).elim
        exact (htrivia (by simp [hcomment, Token.Kind.isTrivia])).elim

/-- A text that does not end a word starts with a word. -/
theorem exists_word (h : Plainly behind text ls) (hends : ¬WordEnds (text ++ behind))
    (hbehind : WordEnds behind) :
    ∃ d word cs ls', text = d :: word ++ cs ∧ ls = ⟨.word, d :: word⟩ :: ls' ∧
      Scans d (word ++ (cs ++ behind)) .plain .word word.length ∧ Plainly behind cs ls' := by
  cases h with
  | nil => exact (hends hbehind).elim
  | @cons kind c text cs ls hscan hat hurl htail =>
    have hword (hends' : endsWord c = true) : False := by
      refine hends fun d hd => ?_
      obtain rfl : c = d := by simpa using hd
      exact .inl hends'
    have hkind : kind = .word := by
      generalize text.length = n at hscan
      cases hscan with
      | space _ hblank => exact (hword (by simp [endsWord, hblank])).elim
      | punctuation _ hkind =>
        refine (hword ?_).elim
        unfold Token.punctuation? at hkind
        split at hkind <;> first | rfl | cases hkind
      | string _ hquote => exact (hword (by rcases hquote with rfl | rfl <;> rfl)).elim
      | atWord => contradiction
      | @comment _ rest _ _ hslash hstar =>
        refine (hends fun d hd => ?_).elim
        obtain rfl : c = d := by simpa using hd
        refine .inr ⟨hslash, ?_⟩
        rw [List.cons_append, List.cons_append, List.tail_cons, List.append_assoc, hstar]
        rfl
      | word => rfl
    subst hkind
    exact ⟨c, text, cs, ls, rfl, rfl, hscan, htail⟩

/-- **A word in front of a text**: it stays a word, or it takes the word at the start of the text
along. -/
theorem push_word (htight : tight.Harmless) {c : Char} {word : List Char}
    (h : Plainly behind text ls) (hbehind : WordEnds behind)
    (hscan : Scans c (word ++ behind') .plain .word word.length)
    (hurl : Lexeme.isUrl ⟨.word, c :: word⟩ = false) (hdangle : dangles (c :: word) = false)
    (hjoint : WordEnds (text ++ behind) ∨ (∃ b ∈ tight.behind, (c :: word).getLast? = some b) ∨
      ∃ d ∈ tight.before, text.head? = some d) :
    ∃ word' ls', Plainly behind (c :: word ++ text) (⟨.word, word'⟩ :: ls') ∧
      Lexeme.marks ls' = Lexeme.marks ls ∧
        (∀ l ∈ (⟨.word, word'⟩ :: ls' : List Lexeme).getLast?, l.kind = .space →
          ∃ l ∈ ls.getLast?, l.kind = .space) := by
  by_cases hends : WordEnds (text ++ behind)
  · have hfollows : Follows .plain .word (c :: word) (text ++ behind) :=
      (Token.follows_word (by simp)).mpr ⟨hends, by simp [hdangle]⟩
    refine ⟨c :: word, ls, .cons (hscan.change hfollows) (by simp) hurl h, rfl, ?_⟩
    intro l hl hspace
    cases ls with
    | nil =>
      cases hl
      cases hspace
    | cons l' ls => exact ⟨l, by simpa using hl, hspace⟩
  obtain ⟨d, more, cs, ls', rfl, rfl, hmore, htail⟩ := h.exists_word hends hbehind
  replace hjoint := hjoint.resolve_left hends
  -- The joint holds tight punctuation, so no comment starts there and the whole is no `url`.
  obtain ⟨e, he, hmem, hcomment⟩ : ∃ e ∈ tight.before ++ tight.behind,
      e ∈ c :: word ++ (d :: more) ∧ ¬((c :: word).getLast? = some '/' ∧ d = '*') := by
    rcases hjoint with ⟨b, hb, hlast⟩ | ⟨e, he, hhead⟩
    · have hb' := List.mem_append_right tight.before hb
      refine ⟨b, hb', List.mem_append_left _ (List.mem_of_getLast? hlast), fun h => ?_⟩
      exact (htight b hb').1 (Option.some.inj (hlast.symm.trans h.1))
    · obtain rfl : d = e := by simpa using hhead
      have he' := List.mem_append_left tight.behind he
      exact ⟨d, he', by simp, fun h => (htight d he').2.1 h.2⟩
  have hscan' := hscan.join (by simp) hdangle hmore (by simp) (by simpa using hends) hcomment
  refine ⟨c :: (word ++ d :: more), ls', ?_, ?_, ?_⟩
  · have := Plainly.cons hscan' (by simp) (Lexeme.isUrl_eq_false hmem (htight e he).2.2) htail
    simpa using this
  · rw [Lexeme.marks_cons_of_not_isMark _ rfl]
  · intro l hl hspace
    cases ls' with
    | nil =>
      cases hl
      cases hspace
    | cons l' ls' => exact ⟨l, by simpa using hl, hspace⟩

/-- Blank space is what starts with a blank character. -/
theorem isBlank_eq_false_of_scans {kind : Token.Kind} {c : Char} {cs : List Char} {n : Nat}
    (h : Scans c cs .plain kind n) (hkind : kind ≠ .space) : isBlank c = false := by
  cases h with
  | space => contradiction
  | punctuation _ hpunctuation => exact Token.isBlank_of_punctuation? hpunctuation
  | string _ hquote => rcases hquote with rfl | rfl <;> rfl
  | atWord _ hat => rw [hat]; rfl
  | comment _ hslash => rw [hslash]; rfl
  | word _ hstart => exact hstart.1

/-- **How the compact form is read**, in front of a text that ends words. -/
theorem exists_compacts (htight : tight.Harmless) (h : Plainly behind text ls)
    (hdangle : ∀ l ∈ ls, l.kind = .word → dangles l.text = false) (hbehind : WordEnds behind')
    (last : Option Char) (separated : Bool) :
    ∃ ls', Plainly behind' (Lexeme.compact tight last separated ls) ls' ∧
      Lexeme.Compacts ls ls' ∧ (last = none → ls'.head?.map Lexeme.kind = Lexeme.lead? ls) := by
  induction h generalizing last separated with
  | nil => exact ⟨[], .nil, ⟨rfl, by simp⟩, fun _ => rfl⟩
  | @cons kind c text cs ls hscan hat hurl htail ih =>
    obtain ⟨hown, hrest⟩ := List.forall_mem_cons.mp hdangle
    rw [Lexeme.compact]
    split
    · next htrivia =>
      have hmark : kind.isMark = false := by
        cases kind <;> first | rfl | cases htrivia
      obtain ⟨ls', hls', hcompacts, hlead⟩ := ih hrest last true
      refine ⟨ls', hls', ⟨?_, hcompacts.ends⟩, fun hlast => ?_⟩
      · rw [hcompacts.marks, Lexeme.marks_cons_of_not_isMark _ hmark]
      · rw [hlead hlast, Lexeme.lead?, Lexeme.lead?, List.map_cons, List.find?_cons_of_neg]
        simpa using htrivia
    next htrivia =>
    have htrivia' : kind.isTrivia = false := by simpa using htrivia
    have hspace : kind ≠ .space := by
      rintro rfl
      cases htrivia'
    have hblank := isBlank_eq_false_of_scans hscan hspace
    -- The token and what stands behind it, without the space in front.
    obtain ⟨core, hcore, hmarks, hends, hhead⟩ : ∃ core,
        Plainly behind' (c :: text ++ Lexeme.compact tight (c :: text).getLast? false ls) core ∧
          Lexeme.marks core = Lexeme.marks (⟨kind, c :: text⟩ :: ls) ∧
            (∀ l ∈ core.getLast?, l.kind ≠ .space) ∧ core.head?.map Lexeme.kind = some kind := by
      obtain ⟨ls', hls', hcompacts, -⟩ := ih hrest (c :: text).getLast? false
      by_cases hword : kind = .word
      · subst hword
        obtain ⟨b, hb⟩ : ∃ b, (c :: text).getLast? = some b := ⟨_, List.getLast?_cons⟩
        have hfollows := ((Token.follows_word (by simp)).mp hscan.follows).1
        rw [hb] at hls'
        have hjoint : WordEnds (Lexeme.compact tight (some b) false ls ++ behind') ∨
            (∃ b ∈ tight.behind, (c :: text).getLast? = some b) ∨
              ∃ d ∈ tight.before, (Lexeme.compact tight (some b) false ls).head? = some d :=
          (htail.joint hfollows hbehind).imp_right (Or.imp_left fun hmem => ⟨b, hmem, hb⟩)
        obtain ⟨word', ls'', hcore, hmarks, hlast⟩ :=
          hls'.push_word htight hbehind hscan hurl (hown rfl) hjoint
        refine ⟨_, by rwa [hb], ?_, fun l hl hkind => ?_, rfl⟩
        · rw [Lexeme.marks_cons_of_not_isMark _ rfl, Lexeme.marks_cons_of_not_isMark _ rfl, hmarks,
            hcompacts.marks]
        · obtain ⟨l', hl', hkind'⟩ := hlast l hl hkind
          exact hcompacts.ends l' hl' hkind'
      · have hfollows : Follows .plain kind (c :: text)
            (Lexeme.compact tight (c :: text).getLast? false ls ++ behind') := by
          cases kind <;> first | contradiction | trivial
        refine ⟨_, .cons (hscan.change hfollows) hat hurl hls', ?_, fun l hl => ?_, rfl⟩
        · have := hcompacts.marks
          simp only [Lexeme.marks, List.map_cons, List.filter_cons] at this ⊢
          rw [this]
        · cases ls' with
          | nil =>
            cases hl
            exact hspace
          | cons l' ls' => exact hcompacts.ends l (by simpa using hl)
    have hlead : Lexeme.lead? (⟨kind, c :: text⟩ :: ls) = some kind := by
      simp [Lexeme.lead?, htrivia']
    cases hspaces : separated && tight.spaces last (c :: text).head? with
    | false =>
      refine ⟨core, by simpa using hcore, ⟨hmarks, hends⟩, fun _ => ?_⟩
      rw [hlead, hhead]
    | true =>
      refine ⟨⟨.space, [' ']⟩ :: core, ?_, ⟨?_, fun l hl => ?_⟩, ?_⟩
      · have := hcore.space hblank
        simpa using this
      · rw [Lexeme.marks_cons_of_not_isMark _ rfl, hmarks]
      · cases core with
        | nil => cases hhead
        | cons l' core => exact hends l (by simpa using hl)
      · rintro rfl
        simp [Value.Compact.Tightness.spaces] at hspaces

end Plainly

end LosslessCss
