import LosslessCss.Proofs.Rewriting
import LosslessCss.Proofs.SpacedUnits

/-!
# Comments without tokens

Where the comments of a text are can be found out one character at a time.  A watch goes through the
text and knows whether it is inside a string or a comment, and whether it is behind a backslash or
behind a slash (`Watch.step`).  A comment starts where a star follows a slash outside of strings, and
the watch counts how often this happens (`Watch.comments`).

The lexical grammar finds the same comments token by token, but for those in addresses, in which it
knows neither strings nor comments (`Watch.passes_of_scans`).  The watch is ready for a new token
wherever the grammar is, so texts that are put together are watched piece by piece
(`Watch.Passes.append`).

## Main Definitions

* `Watch`, `Watch.step`, `Watch.after`, `Watch.comments`
* `Watch.Passes` : a piece of text behind which something new can start
* `Watch.settled` : where a watch is behind a character that means nothing to it

## Main Statements

* `Watch.Passes.append`
* `Watch.passes_of_scans` : behind a token that is no address, something new can start
-/

namespace LosslessCss

open Token (Mode Scans Kind dangles)
open Value (isQuote)
open Value.Compact (Quotes ne_backslash_of_isQuote)

/-- **What a watch is inside of.** -/
inductive Watch where
  /-- Nothing in particular. -/
  | plain
  /-- Nothing, but behind a slash. -/
  | slash
  /-- Nothing, but behind a backslash. -/
  | escaped
  | quoted (quote : { c : Char // isQuote c = true })
  /-- A string, behind a backslash. -/
  | quotedEscaped (quote : { c : Char // isQuote c = true })
  | comment
  /-- A comment, behind a star. -/
  | star
  deriving DecidableEq, Repr

namespace Watch

/-! ### Watching -/

/-- What a character starts. -/
def starting (c : Char) : Watch :=
  if c = '\\' then escaped
  else if h : isQuote c = true then quoted ⟨c, h⟩
  else if c = '/' then slash
  else plain

/-- The characters that start something. -/
def marks : List Char := ['\\', '"', '\'', '/']

/-- **One character.** -/
def step : Watch → Char → Watch
  | plain, c => starting c
  | slash, c => if c = '*' then comment else starting c
  | escaped, _ => plain
  | quoted quote, c =>
    if c = '\\' then quotedEscaped quote else if c = quote.val then plain else quoted quote
  | quotedEscaped quote, _ => quoted quote
  | comment, c => if c = '*' then star else comment
  | star, c => if c = '/' then plain else if c = '*' then star else comment

/-- The watch behind a text. -/
def after (w : Watch) (cs : List Char) : Watch := cs.foldl step w

/-- **How many comments start** in a text. -/
def comments (w : Watch) : List Char → Nat
  | [] => 0
  | c :: cs => (if w = slash ∧ c = '*' then 1 else 0) + (w.step c).comments cs

/-- Outside of strings and comments. -/
def isOutside : Watch → Bool
  | plain | slash | escaped => true
  | _ => false

variable {w : Watch} {c : Char} {cs ds rest text unit gap behind : List Char} {m n : Nat}

theorem not_mem_marks_iff : c ∉ marks ↔ c ≠ '\\' ∧ isQuote c = false ∧ c ≠ '/' := by
  simp [marks, isQuote, and_assoc]

/-- The characters of a class start nothing, if no mark is in the class. -/
theorem not_mem_marks {p : Char → Bool} (hp : marks.any p = false) (hc : p c = true) :
    c ∉ marks :=
  fun hmem => List.any_eq_false.mp hp c hmem hc

/-- What is no quote does not close a string. -/
theorem ne_quote (quote : { c : Char // isQuote c = true }) (hc : isQuote c = false) :
    c ≠ quote.val := by
  rintro rfl
  rw [quote.property] at hc
  cases hc

@[simp]
theorem after_nil (w : Watch) : w.after [] = w := rfl

@[simp]
theorem after_cons (w : Watch) (c : Char) (cs : List Char) :
    w.after (c :: cs) = (w.step c).after cs := rfl

@[simp]
theorem after_append (w : Watch) (cs ds : List Char) :
    w.after (cs ++ ds) = (w.after cs).after ds := List.foldl_append

@[simp]
theorem comments_nil (w : Watch) : w.comments [] = 0 := rfl

theorem comments_cons (w : Watch) (c : Char) (cs : List Char) :
    w.comments (c :: cs) = (if w = slash ∧ c = '*' then 1 else 0) + (w.step c).comments cs := rfl

theorem comments_cons_eq_zero_iff : w.comments (c :: cs) = 0 ↔
    ¬(w = slash ∧ c = '*') ∧ (w.step c).comments cs = 0 := by
  rw [comments_cons, Nat.add_eq_zero_iff]
  simp

theorem comments_append (w : Watch) (cs ds : List Char) :
    w.comments (cs ++ ds) = w.comments cs + (w.after cs).comments ds := by
  induction cs generalizing w with
  | nil => simp
  | cons c cs ih => rw [List.cons_append, comments_cons, ih, comments_cons, after_cons, Nat.add_assoc]

/-! ### Pieces -/

/-- **Something new can start** in front of a text: no string and no comment is under way, and no mark
of one. -/
structure Ready (w : Watch) (cs : List Char) : Prop where
  outside : w.isOutside = true
  slash : w = .slash → cs.head? ≠ some '*'
  escaped : w = .escaped → cs = []

theorem ready_plain (cs : List Char) : plain.Ready cs := ⟨rfl, nofun, nofun⟩

/-- At the end of a text nothing more is asked for. -/
theorem ready_nil_iff : w.Ready [] ↔ w.isOutside = true :=
  ⟨Ready.outside, fun h => ⟨h, by simp, fun _ => rfl⟩⟩

theorem Ready.step_eq (h : w.Ready (c :: cs)) :
    w.step c = plain.step c ∧ ¬(w = .slash ∧ c = '*') := by
  have houtside := h.outside
  cases w with
  | plain => exact ⟨rfl, nofun⟩
  | slash =>
    have hstar : c ≠ '*' := fun hc => h.slash rfl (by rw [hc]; rfl)
    exact ⟨if_neg hstar, fun h => hstar h.2⟩
  | escaped => cases h.escaped rfl
  | _ => cases houtside

/-- A place is ready whatever the text goes on with. -/
theorem Ready.of_append (h : w.Ready (cs ++ rest)) : w.Ready cs := by
  refine ⟨h.outside, fun hslash hstar => h.slash hslash ?_, fun hescaped => ?_⟩
  · rw [List.head?_append, hstar, Option.some_or]
  · exact (List.append_eq_nil_iff.mp (h.escaped hescaped)).1

/-- Where something new can start, it is watched as at the start of a text. -/
theorem Ready.eq_plain (h : w.Ready cs) :
    (cs ≠ [] → w.after cs = plain.after cs) ∧ w.comments cs = plain.comments cs := by
  cases cs with
  | nil => simp
  | cons c cs =>
    obtain ⟨hstep, hstar⟩ := h.step_eq
    rw [after_cons, after_cons, comments_cons, comments_cons, hstep, if_neg hstar, if_neg nofun]
    exact ⟨fun _ => rfl, rfl⟩

/-- **A piece of text** in which `n` comments start, and behind which something new can start. -/
structure Passes (n : Nat) (cs rest : List Char) : Prop where
  comments : plain.comments cs = n
  ready : (plain.after cs).Ready rest

theorem passes_nil (rest : List Char) : Passes 0 [] rest := ⟨rfl, ready_plain rest⟩

/-- **Pieces compose.** -/
theorem Passes.append (hcs : Passes m cs (ds ++ rest)) (hds : Passes n ds rest) :
    Passes (m + n) (cs ++ ds) rest := by
  obtain ⟨hafter, hcomments⟩ := hcs.ready.of_append.eq_plain
  refine ⟨by rw [comments_append, hcs.comments, hcomments, hds.comments], ?_⟩
  rw [after_append]
  by_cases hnil : ds = []
  · subst hnil
    exact hcs.ready
  · rw [hafter hnil]
    exact hds.ready

/-- A piece where something new can start. -/
theorem Passes.of_ready (h : Passes n cs rest) (hw : w.Ready (cs ++ rest)) :
    w.comments cs = n ∧ (w.after cs).Ready rest := by
  obtain ⟨hafter, hcomments⟩ := hw.of_append.eq_plain
  refine ⟨hcomments.trans h.comments, ?_⟩
  by_cases hnil : cs = []
  · subst hnil
    exact hw
  · rw [hafter hnil]
    exact h.ready

/-- One character that starts nothing. -/
theorem passes_single (hslash : c ≠ '\\') (hquote : isQuote c = false)
    (hcomment : ¬(c = '/' ∧ rest.head? = some '*')) : Passes 0 [c] rest := by
  have hstep : plain.step c = if c = '/' then .slash else .plain := by
    simp [step, starting, hslash, hquote]
  refine ⟨by simp [comments_cons], ?_⟩
  rw [after_cons, after_nil, hstep]
  split
  · next hc => exact ⟨rfl, fun _ hstar => hcomment ⟨hc, hstar⟩, nofun⟩
  · exact ready_plain rest

/-- An escaped character. -/
theorem passes_escape (c : Char) (rest : List Char) : Passes 0 ['\\', c] rest :=
  ⟨rfl, ready_plain rest⟩

/-- A backslash at the end of a text. -/
theorem passes_backslash (hrest : rest = []) : Passes 0 ['\\'] rest := by
  subst hrest
  exact ⟨rfl, ready_nil_iff.mpr rfl⟩

/-- A text in which no character starts anything. -/
theorem passes_of_forall (h : ∀ c ∈ cs, c ∉ marks) : Passes 0 cs rest := by
  induction cs with
  | nil => exact passes_nil rest
  | cons c cs ih =>
    obtain ⟨hc, hcs⟩ := List.forall_mem_cons.mp h
    obtain ⟨hslash, hquote, hne⟩ := not_mem_marks_iff.mp hc
    exact (passes_single hslash hquote fun hcomment => hne hcomment.1).append (ih hcs)

/-! ### Strings and comments -/

/-- The inside of a string. -/
theorem after_of_quotes (quote : { c : Char // isQuote c = true }) {inner : List Char}
    (h : Quotes quote.val inner) :
    (quoted quote).after inner = quoted quote ∧ (quoted quote).comments inner = 0 := by
  induction h with
  | nil => exact ⟨rfl, rfl⟩
  | escape c _ ih =>
    refine ⟨ih.1, ?_⟩
    rw [comments_cons, comments_cons]
    simpa [step] using ih.2
  | char hslash hquote _ ih =>
    have hstep : (quoted quote).step _ = quoted quote := (if_neg hslash).trans (if_neg hquote)
    rw [after_cons, comments_cons, hstep, if_neg nofun, Nat.zero_add]
    exact ih

/-- The start of a string. -/
theorem after_cons_of_quotes {quote : Char} (hquote : isQuote quote = true) {inner : List Char}
    (h : Quotes quote inner) (cs : List Char) :
    plain.after (quote :: (inner ++ cs)) = (quoted ⟨quote, hquote⟩).after cs ∧
      plain.comments (quote :: (inner ++ cs)) = (quoted ⟨quote, hquote⟩).comments cs := by
  have hstep : plain.step quote = quoted ⟨quote, hquote⟩ := by
    simp [step, starting, ne_backslash_of_isQuote hquote, hquote]
  obtain ⟨hafter, hcomments⟩ := after_of_quotes ⟨quote, hquote⟩ h
  rw [after_cons, comments_cons, hstep, after_append, comments_append, hafter, hcomments,
    if_neg nofun, Nat.zero_add, Nat.zero_add]
  exact ⟨rfl, rfl⟩

/-- **A string.** -/
theorem passes_quoted {quote : Char} (hquote : isQuote quote = true) {inner : List Char}
    (h : Quotes quote inner) (rest : List Char) : Passes 0 (quote :: (inner ++ [quote])) rest := by
  have hclose : (quoted ⟨quote, hquote⟩).step quote = plain :=
    (if_neg (ne_backslash_of_isQuote hquote)).trans (if_pos rfl)
  obtain ⟨hafter, hcomments⟩ := after_cons_of_quotes hquote h [quote]
  refine ⟨hcomments, ?_⟩
  rw [hafter, after_cons, hclose]
  exact ready_plain rest

/-- What a string holds. -/
theorem exists_quotes_of_stringTail {quote : Char}
    (h : Token.stringTail quote cs = some cs.length) :
    ∃ inner, Quotes quote inner ∧ cs = inner ++ [quote] := by
  fun_induction dangles cs with
  | case1 => cases h
  | case2 => cases h
  | case3 c cs ih =>
    rw [Token.stringTail] at h
    obtain ⟨n, hn, hlength⟩ := Option.map_eq_some_iff.mp h
    obtain rfl : n = cs.length := by simpa using hlength
    obtain ⟨inner, hinner, rfl⟩ := ih hn
    exact ⟨_, .escape c hinner, rfl⟩
  | case4 c cs hne₁ hne₂ ih =>
    have hslash : c ≠ '\\' := Token.ne_backslash hne₁ hne₂
    rw [Token.stringTail_cons_of_ne _ hslash] at h
    split at h
    · next hquote =>
      obtain rfl : cs = [] := by simpa using h
      exact ⟨[], .nil, by rw [hquote]; rfl⟩
    · next hquote =>
      obtain ⟨n, hn, hlength⟩ := Option.map_eq_some_iff.mp h
      obtain rfl : n = cs.length := by simpa using hlength
      obtain ⟨inner, hinner, rfl⟩ := ih hn
      exact ⟨_, .char hslash hquote hinner, rfl⟩

/-- Behind a star a comment goes on as it does otherwise, unless a slash follows. -/
theorem star_eq_comment (hcs : cs.head? ≠ some '/') (hne : cs ≠ []) :
    star.after cs = comment.after cs ∧ star.comments cs = comment.comments cs := by
  obtain ⟨c, cs, rfl⟩ := List.exists_cons_of_ne_nil hne
  have hc : c ≠ '/' := fun hc => hcs (by rw [hc]; rfl)
  have hstep : star.step c = comment.step c := if_neg hc
  rw [after_cons, after_cons, comments_cons, comments_cons, hstep, if_neg nofun, if_neg nofun]
  exact ⟨rfl, rfl⟩

/-- The inside of a comment. -/
theorem after_of_commentTail (h : Token.commentTail cs = some cs.length) :
    comment.after cs = .plain ∧ comment.comments cs = 0 := by
  induction cs with
  | nil => cases h
  | cons c cs ih =>
    rw [Token.commentTail_cons] at h
    rw [after_cons, comments_cons, if_neg nofun, Nat.zero_add]
    split at h
    · next hclose =>
      obtain ⟨rfl, hslash⟩ := hclose
      obtain ⟨cs, rfl⟩ := List.head?_eq_some_iff.mp hslash
      obtain rfl : cs = [] := by simpa using h
      exact ⟨rfl, rfl⟩
    · next hopen =>
      obtain ⟨n, hn, hlength⟩ := Option.map_eq_some_iff.mp h
      obtain rfl : n = cs.length := by simpa using hlength
      by_cases hstar : c = '*'
      · have hne : cs ≠ [] := by
          rintro rfl
          cases hn
        obtain ⟨hafter, hcomments⟩ := star_eq_comment (fun hslash => hopen ⟨hstar, hslash⟩) hne
        rw [step, if_pos hstar, hafter, hcomments]
        exact ih hn
      · rw [step, if_neg hstar]
        exact ih hn

/-- **A comment.** -/
theorem passes_comment (h : Token.commentTail cs = some cs.length) (rest : List Char) :
    Passes 1 ('/' :: '*' :: cs) rest := by
  have hslash : plain.step '/' = .slash := by decide
  obtain ⟨hafter, hcomments⟩ := after_of_commentTail h
  refine ⟨?_, ?_⟩
  · rw [comments_cons, comments_cons, hslash]
    change 0 + (1 + comment.comments cs) = 1
    rw [hcomments]
  · change (comment.after cs).Ready rest
    rw [hafter]
    exact ready_plain rest

end Watch

/-! ### Words -/

namespace Watch

variable {mode last : Mode} {kind : Kind} {c : Char} {cs ds text rest : List Char}
  {ls : List Lexeme}

/-- Not behind a backslash that takes the next character along. -/
def isUnescaped : Watch → Bool
  | escaped | quotedEscaped _ => false
  | _ => true

theorem isUnescaped_starting (hslash : c ≠ '\\') : (starting c).isUnescaped = true := by
  rw [starting, if_neg hslash]
  split
  · rfl
  · split <;> rfl

theorem isUnescaped_step {w : Watch} (hw : w.isUnescaped = true) (hslash : c ≠ '\\') :
    (w.step c).isUnescaped = true := by
  cases w with
  | plain => exact isUnescaped_starting hslash
  | slash =>
    rw [step]
    split
    · rfl
    · exact isUnescaped_starting hslash
  | escaped => cases hw
  | quotedEscaped => cases hw
  | quoted =>
    rw [step, if_neg hslash]
    split <;> rfl
  | comment =>
    rw [step]
    split <;> rfl
  | star =>
    rw [step]
    split
    · rfl
    · split <;> rfl

/-- Behind an escape as well. -/
theorem isUnescaped_step_step {w : Watch} (hw : w.isUnescaped = true) (c : Char) :
    ((w.step '\\').step c).isUnescaped = true := by
  have hcomment : (comment.step c).isUnescaped = true := by
    rw [step]
    split <;> rfl
  cases w with
  | plain | slash | quoted => rfl
  | escaped => cases hw
  | quotedEscaped => cases hw
  | comment | star => exact hcomment

/-- The rest of a word. -/
theorem passes_of_wordTail (h : Token.wordTail (cs ++ rest) = cs.length)
    (hdangle : dangles cs = true → rest = []) : Passes 0 cs rest := by
  fun_induction dangles cs with
  | case1 => exact passes_nil rest
  | case2 => exact passes_backslash (hdangle rfl)
  | case3 c cs ih =>
    rw [List.cons_append, List.cons_append, Token.wordTail_escape] at h
    exact (passes_escape c _).append (ih (by simpa using h) hdangle)
  | case4 c cs hne₁ hne₂ ih =>
    have hslash : c ≠ '\\' := Token.ne_backslash hne₁ hne₂
    rw [List.cons_append, Token.wordTail_cons_of_ne _ hslash] at h
    split at h
    · cases h
    · next hcontinues =>
      obtain ⟨hends, hcomment⟩ := not_or.mp hcontinues
      have hquote : isQuote c = false := by
        rw [isQuote, Bool.or_eq_false_iff, beq_eq_false_iff_ne, beq_eq_false_iff_ne]
        refine ⟨?_, ?_⟩ <;> rintro rfl <;> exact hends rfl
      exact (passes_single hslash hquote hcomment).append (ih (by simpa using h) hdangle)

/-- **A word outside of addresses** starts nothing. -/
theorem passes_of_word (hstart : Token.StartsWord c (text ++ rest))
    (hword : Token.scanWord c (text ++ rest) = text.length)
    (hdangle : dangles (c :: text) = true → rest = []) : Passes 0 (c :: text) rest := by
  obtain ⟨-, -, hsingle, hdouble, -, hcomment⟩ := hstart
  by_cases hslash : c = '\\'
  · subst hslash
    cases text with
    | nil => exact passes_backslash (hdangle rfl)
    | cons d text =>
      have htail : Token.wordTail (text ++ rest) = text.length := by
        simpa [Token.scanWord] using hword
      exact (passes_escape d _).append (passes_of_wordTail htail hdangle)
  · rw [Token.scanWord_of_ne hslash] at hword
    rw [Token.dangles_cons_of_ne _ hslash] at hdangle
    exact (passes_single hslash (by simp [isQuote, hsingle, hdouble]) hcomment).append
      (passes_of_wordTail hword hdangle)

/-- **One token** outside of addresses is passed, and counted if it is a comment. -/
theorem passes_of_scans (hscan : Scans c (text ++ rest) mode kind text.length)
    (hmode : mode ≠ .address) :
    Passes (if kind = .comment then 1 else 0) (c :: text) rest := by
  have hfollows := hscan.follows
  have hspells := hscan.spells
  rw [List.take_left] at hspells
  by_cases hcomment : kind = .comment
  · subst hcomment
    obtain ⟨inner, hinner, hreach⟩ := hscan.exists_inner
    rw [hinner]
    exact passes_comment (by simpa using hreach) rest
  rw [if_neg hcomment]
  generalize hn : text.length = n at hscan
  cases hscan with
  | address => contradiction
  | space =>
    have hblank : marks.any Token.isBlank = false := rfl
    exact passes_of_forall fun d hd => not_mem_marks hblank (hspells d hd)
  | punctuation _ hkind =>
    obtain rfl := List.length_eq_zero_iff.mp hn
    have hpunctuation : marks.any (fun d => (Token.punctuation? d).isSome) = false := rfl
    refine passes_of_forall fun d hd => not_mem_marks hpunctuation ?_
    obtain rfl := List.mem_singleton.mp hd
    rw [hkind, Option.isSome_some]
  | string _ hquote hreach =>
    rw [← hn, Token.stringTail_append_iff le_rfl] at hreach
    obtain ⟨inner, hinner, rfl⟩ := exists_quotes_of_stringTail hreach
    exact passes_quoted (by rcases hquote with rfl | rfl <;> rfl) hinner rest
  | atWord _ hat =>
    subst hat
    have htext := (Token.length_takeWhile_append_iff.mp hn.symm).1
    have hends : marks.any (fun d => (!Token.endsAtWord d)) = false := rfl
    exact passes_of_forall (List.forall_mem_cons.mpr
      ⟨by decide, fun d hd => not_mem_marks hends (htext d hd)⟩)
  | comment => exact absurd rfl hcomment
  | word _ hstart =>
    rw [Token.follows_word hmode] at hfollows
    exact passes_of_word hstart hn.symm hfollows.2

end Watch

/-! ### Lengths -/

namespace Watch

/-- What the characters of a length leave of what is under way. -/
def settled : Watch → Watch
  | plain | slash | escaped => plain
  | quoted quote | quotedEscaped quote => quoted quote
  | comment | star => comment

/-- A character that starts nothing and ends nothing. -/
theorem step_eq_settled {c : Char} (w : Watch) (hc : c ∉ marks) (hstar : c ≠ '*') :
    w.step c = w.settled := by
  obtain ⟨hslash, hquote, hmark⟩ := not_mem_marks_iff.mp hc
  have hne (quote : { c : Char // isQuote c = true }) := ne_quote quote hquote
  cases w <;> simp [step, starting, settled, hslash, hquote, hmark, hstar, hne]

theorem settled_settled (w : Watch) : w.settled.settled = w.settled := by
  cases w <;> rfl

/-- Inside a string or a comment one stays there without a quote and a slash. -/
theorem isOutside_of_after {cs : List Char} {w : Watch}
    (hcs : ∀ c ∈ cs, isQuote c = false ∧ c ≠ '/') (h : (w.after cs).isOutside = true) :
    w.isOutside = true := by
  induction cs generalizing w with
  | nil => exact h
  | cons c cs ih =>
    obtain ⟨⟨hquote, hslash⟩, hcs⟩ := List.forall_mem_cons.mp hcs
    have hstep := ih hcs h
    cases w with
    | plain | slash | escaped => rfl
    | quoted quote =>
      rw [step, if_neg (ne_quote quote hquote)] at hstep
      split at hstep <;> cases hstep
    | quotedEscaped => cases hstep
    | comment | star =>
      simp only [step, hslash, if_false] at hstep
      split at hstep <;> cases hstep

end Watch

end LosslessCss
