import LosslessCss.Proofs.Boundaries
import LosslessCss.Proofs.Watching

/-!
# Addresses that close

The lexical grammar knows no strings and no comments in an address, and compaction knows no
addresses.  So what one of them takes for the end of an address can be inside a string for the
other, and blank space behind `url(` makes an address that was none before.  None of this matters
where addresses close (`Watch.urlsClose`): what stands behind `url(` is quoted, or the first
parenthesis that closes it is outside of strings and comments, with no bracket and no brace in front
of it.

Then a watch is ready for something new wherever a token ends, and reads the punctuation that
structures a statement, whether or not the grammar has an address there (`Lexes.watched`).  The
other way round, a text without comments in which all addresses close and nothing is left open is
read to its end (`Watch.Readable.exists_lexes`).

## Main Definitions

* `Watch.punctuation` : the punctuation of statements that a watch reads
* `Watch.hides` : a text inside of a string or a comment
* `Watch.closesAddress`, `closesUrl`, `Watch.urlsClose`
* `Token.Mode.Expects` : what a mode asks of the text ahead

## Main Statements

* `Lexes.watched`
* `Watch.Readable.exists_lexes`
* `Rewritten.urlsClose_eq` : lengths do not matter for addresses
-/

namespace LosslessCss

open Token (Mode Scans Kind dangles isBlank startsAddress endsWord addressTail stringTail wordTail)
open Value (isQuote)
open Value.Compact (Quotes ne_backslash_of_isQuote)

namespace Watch

variable {w : Watch} {c : Char} {cs ds rest text : List Char} {m n : Nat} {mode : Mode} {kind : Kind}
  {glued : Bool}

/-! ### What is read and what is hidden -/

/-- What comes next is read: it is outside of strings and comments, and not escaped. -/
def isReading (w : Watch) : Bool := w.isOutside && w.isUnescaped

/-- Where something new can start, text is read. -/
theorem Ready.isReading (h : w.Ready (c :: cs)) : w.isReading = true := by
  have houtside := h.outside
  cases w with
  | escaped => cases h.escaped rfl
  | plain | slash => rfl
  | _ => cases houtside

/-- Where text is read, something new can start at the end of a text and in front of what is no
star. -/
theorem ready_of_isReading (h : w.isReading = true) (hcs : cs.head? ≠ some '*') : w.Ready cs := by
  refine ⟨(Bool.and_eq_true_iff.mp h).1, fun _ => hcs, ?_⟩
  rintro rfl
  cases h

/-- **A text is hidden**: none of it is outside of strings and comments. -/
def hides (w : Watch) : List Char → Bool
  | [] => true
  | c :: cs => !w.isOutside && (w.step c).hides cs

theorem hides_cons_iff : w.hides (c :: cs) = true ↔ w.isOutside = false ∧ (w.step c).hides cs = true := by
  rw [hides, Bool.and_eq_true, Bool.not_eq_true']

theorem isReading_of_not_isOutside (h : w.isOutside = false) : w.isReading = false := by
  rw [Watch.isReading, h, Bool.false_and]

/-- The inside of a string is hidden, and so is the quote that closes it. -/
theorem hides_quotes (quote : { c : Char // isQuote c = true }) {inner : List Char}
    (h : Quotes quote.val inner) : (quoted quote).hides (inner ++ [quote.val]) = true := by
  induction h with
  | nil => rfl
  | escape c _ ih => exact ih
  | char hslash hquote _ ih =>
    have hstep : (quoted quote).step _ = quoted quote := (if_neg hslash).trans (if_neg hquote)
    rw [List.cons_append, hides_cons_iff, hstep]
    exact ⟨rfl, ih⟩

/-- The inside of a comment is hidden, and so is the mark that closes it. -/
theorem hides_comment (h : Token.commentTail cs = some cs.length) : comment.hides cs = true := by
  induction cs with
  | nil => rfl
  | cons c cs ih =>
    rw [Token.commentTail_cons] at h
    split at h
    · next hclose =>
      obtain ⟨rfl, hhead⟩ := hclose
      obtain ⟨cs, rfl⟩ := List.head?_eq_some_iff.mp hhead
      obtain rfl : cs = [] := by simpa using h
      rfl
    · next hopen =>
      obtain ⟨n, hn, hlength⟩ := Option.map_eq_some_iff.mp h
      obtain rfl : n = cs.length := by simpa using hlength
      refine hides_cons_iff.mpr ⟨rfl, ?_⟩
      by_cases hstar : c = '*'
      · -- Behind a star a comment goes on as it does otherwise.
        subst hstar
        obtain ⟨d, cs, rfl⟩ := List.exists_cons_of_ne_nil fun hnil : cs = [] => by
          rw [hnil] at hn
          cases hn
        have hd : star.step d = comment.step d := if_neg fun hd => hopen ⟨rfl, congrArg some hd⟩
        refine hides_cons_iff.mpr ⟨rfl, ?_⟩
        change (star.step d).hides cs = true
        rw [hd]
        exact (hides_cons_iff.mp (ih hn)).2
      · rw [show comment.step c = .comment from if_neg hstar]
        exact ih hn

/-! ### Punctuation -/

/-- A character that structures statements. -/
def mark? (c : Char) : Option Kind := (Token.punctuation? c).filter Kind.isMark

/-- **The punctuation of statements** in a text, as far as it is read. -/
def punctuation (w : Watch) : List Char → List Kind
  | [] => []
  | c :: cs => (if w.isReading then (mark? c).toList else []) ++ (w.step c).punctuation cs

@[simp]
theorem punctuation_nil (w : Watch) : w.punctuation [] = [] := rfl

theorem punctuation_cons (w : Watch) (c : Char) (cs : List Char) :
    w.punctuation (c :: cs) =
      (if w.isReading then (mark? c).toList else []) ++ (w.step c).punctuation cs := rfl

theorem punctuation_append (w : Watch) (cs ds : List Char) :
    w.punctuation (cs ++ ds) = w.punctuation cs ++ (w.after cs).punctuation ds := by
  induction cs generalizing w with
  | nil => rfl
  | cons c cs ih => rw [List.cons_append, punctuation_cons, ih, punctuation_cons, after_cons,
      List.append_assoc]

theorem Ready.punctuation_eq (h : w.Ready cs) : w.punctuation cs = plain.punctuation cs := by
  cases cs with
  | nil => rfl
  | cons c cs =>
    rw [punctuation_cons, punctuation_cons, h.isReading, h.step_eq.1]
    rfl

/-- What is hidden has no punctuation. -/
theorem punctuation_of_hides (h : w.hides cs = true) : w.punctuation cs = [] := by
  induction cs generalizing w with
  | nil => rfl
  | cons c cs ih =>
    obtain ⟨hw, hcs⟩ := hides_cons_iff.mp h
    rw [punctuation_cons, isReading_of_not_isOutside hw, ih hcs]
    rfl

/-- Characters that structure nothing. -/
theorem punctuation_of_forall (h : ∀ c ∈ cs, mark? c = none) : w.punctuation cs = [] := by
  induction cs generalizing w with
  | nil => rfl
  | cons c cs ih =>
    obtain ⟨hc, hcs⟩ := List.forall_mem_cons.mp h
    rw [punctuation_cons, hc, ih hcs]
    simp

/-- The marks are in each class of characters that all of them are in. -/
theorem mark?_eq_none {p : Char → Bool} (hc : p c = false)
    (hp : ['\x7b', '\x7d', '(', ')', '[', ']', ';'].all p = true) : mark? c = none := by
  have hne (d : Char) (hd : p d = true) : c ≠ d := by
    rintro rfl
    rw [hc] at hd
    cases hd
  simp only [List.all_cons, List.all_nil, Bool.and_eq_true] at hp
  unfold mark? Token.punctuation?
  split <;> first | rfl | (exfalso; simp_all)

/-- The rest of a word has no punctuation. -/
theorem punctuation_of_wordTail (hw : w.Ready (cs ++ rest)) (h : wordTail (cs ++ rest) = cs.length)
    (hdangle : dangles cs = true → rest = []) : w.punctuation cs = [] := by
  have hends {d : Char} (hd : endsWord d = false) : mark? d = none := mark?_eq_none hd rfl
  fun_induction dangles cs generalizing w with
  | case1 => rfl
  | case2 => exact punctuation_of_forall (by simpa using hends rfl)
  | case3 c cs ih =>
    rw [List.cons_append, List.cons_append, Token.wordTail_escape] at h
    have hnext := ((passes_escape c (cs ++ rest)).of_ready hw).2
    have hback : (w.step '\\').isReading = false := by
      rw [hw.step_eq.1]
      rfl
    rw [punctuation_cons, punctuation_cons, hback, hends rfl]
    simpa using ih hnext (by simpa using h) hdangle
  | case4 c cs hne₁ hne₂ ih =>
    have hslash : c ≠ '\\' := Token.ne_backslash hne₁ hne₂
    rw [List.cons_append, Token.wordTail_cons_of_ne _ hslash] at h
    split at h
    · cases h
    · next hcontinues =>
      obtain ⟨hword, hcomment⟩ := not_or.mp hcontinues
      have hquote : isQuote c = false := by
        rw [isQuote, Bool.or_eq_false_iff, beq_eq_false_iff_ne, beq_eq_false_iff_ne]
        refine ⟨?_, ?_⟩ <;> rintro rfl <;> exact hword rfl
      have hnext : (w.step c).Ready (cs ++ rest) :=
        ((passes_single hslash hquote hcomment).of_ready hw).2
      rw [punctuation_cons, hends (by simpa using hword), ih hnext (by simpa using h) hdangle]
      simp

/-- **The punctuation of a token** outside of addresses is its kind. -/
theorem punctuation_of_scans (hscan : Scans c (text ++ rest) mode kind text.length)
    (hmode : mode ≠ .address) : plain.punctuation (c :: text) = [kind].filter Kind.isMark := by
  have hfollows := hscan.follows
  have hspells := hscan.spells
  rw [List.take_left] at hspells
  generalize hn : text.length = n at hscan
  cases hscan with
  | address => contradiction
  | space =>
    refine punctuation_of_forall fun d hd => ?_
    exact mark?_eq_none (p := fun e => !isBlank e) (by simpa using hspells d hd) rfl
  | punctuation _ hkind =>
    obtain rfl := List.length_eq_zero_iff.mp hn
    rw [punctuation_cons, mark?, hkind]
    cases h : kind.isMark <;> simp [h, isReading, isOutside, isUnescaped]
  | string _ hquote hreach =>
    rw [← hn, Token.stringTail_append_iff le_rfl] at hreach
    obtain ⟨inner, hinner, rfl⟩ := exists_quotes_of_stringTail hreach
    have hquote : isQuote c = true := by rcases hquote with rfl | rfl <;> rfl
    have hstep : plain.step c = quoted ⟨c, hquote⟩ := by
      simp [step, starting, ne_backslash_of_isQuote hquote, hquote]
    rw [punctuation_cons, hstep, punctuation_of_hides (hides_quotes ⟨c, hquote⟩ hinner),
      mark?_eq_none (p := fun d => !isQuote d) (by simpa using hquote) rfl]
    rfl
  | atWord _ hat =>
    subst hat
    have htext := (Token.length_takeWhile_append_iff.mp hn.symm).1
    refine punctuation_of_forall (List.forall_mem_cons.mpr ⟨rfl, fun d hd => ?_⟩)
    exact mark?_eq_none (p := Token.endsAtWord) (by simpa using htext d hd) rfl
  | @comment _ inner n _ hslash hstar hreach =>
    subst hslash
    obtain ⟨text, rfl⟩ : ∃ text', text = '*' :: text' := by
      cases text with
      | nil => cases hn
      | cons d text => exact ⟨text, congrArg (· :: text) (List.cons.inj hstar).1⟩
    obtain rfl : text ++ rest = inner := (List.cons.inj hstar).2
    obtain rfl : text.length = n := by simpa using hn
    rw [Token.commentTail_append_iff le_rfl] at hreach
    change comment.punctuation text = []
    exact punctuation_of_hides (hides_comment hreach)
  | word hmode hstart =>
    rw [Token.follows_word hmode] at hfollows
    obtain ⟨hends, hdangle⟩ := hfollows
    obtain ⟨-, hpunctuation, hsingle, hdouble, -, hcomment⟩ := hstart
    have hmark : mark? c = none := by rw [mark?, hpunctuation]; rfl
    by_cases hslash : c = '\\'
    · subst hslash
      cases text with
      | nil => rfl
      | cons d text =>
        have htail : wordTail ('\\' :: d :: text ++ rest) = ('\\' :: d :: text).length := by
          rw [List.cons_append, List.cons_append, Token.wordTail_escape]
          simpa [Token.scanWord] using hn.symm
        exact punctuation_of_wordTail (ready_plain _) htail hdangle
    · rw [Token.scanWord_of_ne hslash] at hn
      rw [Token.dangles_cons_of_ne _ hslash] at hdangle
      have hpass : Passes 0 [c] (text ++ rest) :=
        passes_single hslash (by simp [isQuote, hsingle, hdouble]) hcomment
      have htail := punctuation_of_wordTail (w := plain.step c) hpass.ready hn.symm hdangle
      rw [punctuation_cons, hmark, htail]
      rfl

/-! ### Addresses -/

/-- **An address is closed**: the first parenthesis that closes it is outside of strings and
comments, and no bracket and no brace is read in front of it. -/
def closesAddress (w : Watch) : List Char → Bool
  | [] => false
  | c :: cs =>
    if c = ')' ∧ w.isUnescaped = true then w.isOutside
    else (!w.isReading || (mark? c).all (· == .semicolon)) && (w.step c).closesAddress cs

theorem closesAddress_cons (w : Watch) (c : Char) (cs : List Char) :
    w.closesAddress (c :: cs) =
      if c = ')' ∧ w.isUnescaped = true then w.isOutside
      else (!w.isReading || (mark? c).all (· == .semicolon)) && (w.step c).closesAddress cs := rfl

/-- More text behind an address that is closed does not matter. -/
theorem closesAddress_append (h : w.closesAddress cs = true) (ds : List Char) :
    w.closesAddress (cs ++ ds) = true := by
  induction cs generalizing w with
  | nil => cases h
  | cons c cs ih =>
    rw [List.cons_append, closesAddress_cons]
    rw [closesAddress_cons] at h
    split at h
    · next hclose => rwa [if_pos hclose]
    · next hclose =>
      obtain ⟨hmark, hcs⟩ := Bool.and_eq_true_iff.mp h
      rw [if_neg hclose, hmark, ih hcs]
      rfl

theorem Ready.closesAddress_eq (h : w.Ready cs) :
    w.closesAddress cs = plain.closesAddress cs := by
  cases cs with
  | nil => rfl
  | cons c cs =>
    obtain ⟨houtside, hunescaped⟩ := Bool.and_eq_true_iff.mp h.isReading
    rw [closesAddress_cons, closesAddress_cons, h.isReading, h.step_eq.1, houtside, hunescaped]
    rfl

/-- **The grammar finds the end of an address that is closed**, and what is read of it are
semicolons. -/
theorem addressTail_of_closesAddress (hw : w.isUnescaped = true)
    (h : w.closesAddress cs = true) :
    ∃ body behind, cs = body ++ ')' :: behind ∧ addressTail cs = some body.length ∧
      (w.after body).isReading = true ∧ ∀ k ∈ w.punctuation body, k = .semicolon := by
  have hread {w : Watch} {c : Char}
      (hmark : (!w.isReading || (mark? c).all (· == Kind.semicolon)) = true) :
      ∀ k ∈ (if w.isReading = true then (mark? c).toList else []), k = .semicolon := by
    cases hreading : w.isReading with
    | false => simp
    | true => simpa [hreading, Option.all_eq_true] using hmark
  fun_induction dangles cs generalizing w with
  | case1 => cases h
  | case2 =>
    rw [closesAddress_cons, if_neg (by simp)] at h
    simp [closesAddress] at h
  | case3 c cs ih =>
    rw [closesAddress_cons, if_neg (by simp), closesAddress_cons] at h
    have hback : (w.step '\\').isReading = false := by
      cases w <;> first | rfl | cases hw
    obtain ⟨-, h⟩ := Bool.and_eq_true_iff.mp h
    split at h
    · next hclose =>
      rw [isReading, h, hclose.2] at hback
      cases hback
    · obtain ⟨body, behind, rfl, htail, hreading, hpunctuation⟩ :=
        ih (isUnescaped_step_step hw c) (Bool.and_eq_true_iff.mp h).2
      refine ⟨'\\' :: c :: body, behind, rfl, ?_, hreading, ?_⟩
      · rw [addressTail, htail]
        rfl
      · rw [punctuation_cons, punctuation_cons, hback]
        simpa [mark?, Token.punctuation?] using hpunctuation
  | case4 c cs hne₁ hne₂ ih =>
    have hslash : c ≠ '\\' := Token.ne_backslash hne₁ hne₂
    rw [closesAddress_cons, hw] at h
    rw [Token.addressTail_cons_of_ne _ hslash]
    split at h
    · next hclose =>
      obtain ⟨rfl, -⟩ := hclose
      exact ⟨[], cs, rfl, rfl, by rw [after_nil, isReading, h, hw]; rfl, by simp⟩
    · next hclose =>
      obtain ⟨hmark, h⟩ := Bool.and_eq_true_iff.mp h
      obtain ⟨body, behind, rfl, htail, hreading, hpunctuation⟩ := ih (isUnescaped_step hw hslash) h
      refine ⟨c :: body, behind, rfl, ?_, hreading, ?_⟩
      · rw [if_neg fun hc => hclose ⟨hc, rfl⟩, htail]
        rfl
      · rw [punctuation_cons]
        exact List.forall_mem_append.mpr ⟨hread hmark, hpunctuation⟩

/-- **What stands behind `url(`** is quoted, or an address that is closed. -/
def closesUrl (cs : List Char) : Bool :=
  (cs.dropWhile isBlank).head?.any isQuote || plain.closesAddress cs

theorem closesUrl_nil : closesUrl [] = false := rfl

theorem closesUrl_append (h : closesUrl cs = true) (ds : List Char) :
    closesUrl (cs ++ ds) = true := by
  rw [closesUrl, Bool.or_eq_true] at h ⊢
  refine h.imp (fun hquote => ?_) fun hclosed => closesAddress_append hclosed ds
  rw [List.dropWhile_append]
  cases hdrop : cs.dropWhile isBlank with
  | nil => simp [hdrop] at hquote
  | cons c cs => simpa [hdrop] using hquote

/-- The text behind `url(`, in any case. -/
def behindUrl? : List Char → Option (List Char)
  | u :: r :: l :: '(' :: cs =>
    if Text.eqIgnoringCase [u, r, l] ['u', 'r', 'l'] = true then some cs else none
  | _ => none

theorem behindUrl?_eq_some_iff : behindUrl? cs = some ds ↔
    ∃ u r l, cs = u :: r :: l :: '(' :: ds ∧
      Text.eqIgnoringCase [u, r, l] ['u', 'r', 'l'] = true := by
  unfold behindUrl?
  split
  · next u r l cs =>
    constructor
    · intro h
      split at h
      · next hurl =>
        obtain rfl : cs = ds := by simpa using h
        exact ⟨u, r, l, rfl, hurl⟩
      · cases h
    · rintro ⟨u', r', l', hcut, hurl⟩
      injections
      subst_vars
      rw [if_pos hurl]
  · next hno =>
    refine ⟨nofun, ?_⟩
    rintro ⟨u, r, l, rfl, -⟩
    exact absurd rfl (hno u r l ds)

theorem toLower_of_behindUrl? (h : behindUrl? (c :: cs) = some ds) : c.toLower = 'u' := by
  obtain ⟨u, r, l, hcut, hurl⟩ := behindUrl?_eq_some_iff.mp h
  obtain ⟨rfl, -⟩ := List.cons.inj hcut
  simp only [Text.eqIgnoringCase, List.map_cons, List.map_nil, beq_iff_eq, List.cons.injEq] at hurl
  exact hurl.1

/-- The name `url` starts with a letter, which ends no word and no at-word. -/
theorem endsWord_of_behindUrl? (h : behindUrl? (c :: cs) = some ds) :
    endsWord c = false ∧ Token.endsAtWord c = false ∧ c ≠ '/' ∧ c ≠ ')' := by
  have hlower := toLower_of_behindUrl? h
  have hne (ds : List Char) (hds : ds.all (·.toLower != 'u') = true) : ∀ d ∈ ds, c ≠ d := by
    rintro d hd rfl
    have := List.all_eq_true.mp hds c hd
    simp [hlower] at this
  have hall := hne [' ', '\t', '\n', '\r', '\x0c', '!', '"', '\'', '#', '(', ')', '[', ']',
    '\x7b', '\x7d', ':', ';', '@', '>', '+', '~', '/', '\\'] rfl
  simp only [List.forall_mem_cons] at hall
  simp [endsWord, Token.endsAtWord, isBlank, hall]

/-- **A word goes on** behind the character. -/
def glues : Watch → Char → Bool
  | plain, c | slash, c => !(Text.isWhiteSpace c || isQuote c || (Token.punctuation? c).isSome)
  | escaped, _ => true
  | _, _ => false

/-- **All addresses close** in a text; `glued` tells whether a word goes on where it starts. -/
def urlsClose (w : Watch) (glued : Bool) : List Char → Bool
  | [] => true
  | c :: cs =>
    (!(w.isReading && !glued) || (behindUrl? (c :: cs)).all closesUrl) &&
      (w.step c).urlsClose (w.glues c) cs

@[simp]
theorem urlsClose_nil (w : Watch) (glued : Bool) : w.urlsClose glued [] = true := rfl

theorem urlsClose_cons_iff : w.urlsClose glued (c :: cs) = true ↔
    (w.isReading = true → glued = false → ∀ ds, behindUrl? (c :: cs) = some ds →
      closesUrl ds = true) ∧ (w.step c).urlsClose (w.glues c) cs = true := by
  rw [urlsClose]
  cases w.isReading <;> cases glued <;> simp [Option.all_eq_true]

/-- What is glued does not start an address. -/
theorem urlsClose_glued (hcs : behindUrl? cs = none) :
    w.urlsClose glued cs = w.urlsClose false cs := by
  cases cs with
  | nil => rfl
  | cons c cs => simp [urlsClose, hcs]

theorem Ready.urlsClose_eq (h : w.Ready cs) : w.urlsClose glued cs = plain.urlsClose glued cs := by
  cases cs with
  | nil => rfl
  | cons c cs =>
    have hreading := h.isReading
    have hglues : w.glues c = plain.glues c := by
      cases w <;> first | rfl | cases hreading
    rw [urlsClose, urlsClose, hreading, h.step_eq.1, hglues]
    rfl

/-- Behind a text addresses close as well. -/
theorem urlsClose_of_append (h : w.urlsClose glued (cs ++ c :: ds) = true) :
    ((w.after cs).step c).urlsClose ((w.after cs).glues c) ds = true := by
  induction cs generalizing w glued with
  | nil => exact (urlsClose_cons_iff.mp h).2
  | cons d cs ih => exact ih (urlsClose_cons_iff.mp h).2

/-- The text goes on with no character of `url(`. -/
def BreaksUrl (cs : List Char) : Prop := ∀ c ∈ cs.head?, c.toLower ∉ ['u', 'r', 'l'] ∧ c ≠ '('

/-- No `url(` reaches into such a text. -/
theorem behindUrl?_append (hds : BreaksUrl ds) {es : List Char}
    (h : behindUrl? (cs ++ ds) = some es) : ∃ es', behindUrl? cs = some es' ∧ es = es' ++ ds := by
  obtain ⟨u, r, l, hcut, hurl⟩ := behindUrl?_eq_some_iff.mp h
  obtain ⟨hu, hr, hl⟩ : u.toLower = 'u' ∧ r.toLower = 'r' ∧ l.toLower = 'l' := by
    simpa [Text.eqIgnoringCase] using hurl
  rcases List.append_eq_append_iff.mp (show cs ++ ds = [u, r, l, '('] ++ es from hcut) with
    ⟨rest, hname, rfl⟩ | ⟨rest, rfl, rfl⟩
  · -- What breaks off would stand among the four characters.
    cases rest with
    | nil =>
      rw [List.append_nil] at hname
      exact ⟨[], behindUrl?_eq_some_iff.mpr ⟨u, r, l, hname.symm, hurl⟩, rfl⟩
    | cons c rest =>
      obtain ⟨hlower, hparen⟩ := hds c rfl
      have hmem : c ∈ [u, r, l, '('] := hname ▸ List.mem_append_right _ List.mem_cons_self
      simp only [List.mem_cons, List.not_mem_nil, or_false] at hmem
      rcases hmem with rfl | rfl | rfl | rfl <;> simp_all
  · exact ⟨rest, behindUrl?_eq_some_iff.mpr ⟨u, r, l, rfl, hurl⟩, rfl⟩

/-- Less has to close where a word goes on. -/
theorem urlsClose_of_false (h : w.urlsClose false cs = true) : w.urlsClose glued cs = true := by
  cases cs with
  | nil => rfl
  | cons c cs =>
    obtain ⟨hhead, hcs⟩ := urlsClose_cons_iff.mp h
    exact urlsClose_cons_iff.mpr ⟨fun hreading _ => hhead hreading rfl, hcs⟩

/-- A text without parentheses has no addresses. -/
theorem urlsClose_of_not_mem (hcs : '(' ∉ cs) : w.urlsClose glued cs = true := by
  induction cs generalizing w glued with
  | nil => rfl
  | cons c cs ih =>
    refine urlsClose_cons_iff.mpr ⟨fun _ _ ds hds => ?_, ih fun hmem => hcs (.tail _ hmem)⟩
    obtain ⟨u, r, l, hcut, -⟩ := behindUrl?_eq_some_iff.mp hds
    rw [hcut] at hcs
    simp at hcs

/-- **In front of a text that no `url(` reaches into** addresses close as they do without it. -/
theorem urlsClose_append (h : w.urlsClose glued cs = true) (hbreaks : BreaksUrl ds)
    (hds : (w.after cs).urlsClose false ds = true) : w.urlsClose glued (cs ++ ds) = true := by
  induction cs generalizing w glued with
  | nil => exact urlsClose_of_false hds
  | cons c cs ih =>
    obtain ⟨hhead, hcs⟩ := urlsClose_cons_iff.mp h
    refine urlsClose_cons_iff.mpr ⟨fun hreading hfree es hes => ?_, ih hcs hds⟩
    obtain ⟨es, hes', rfl⟩ := behindUrl?_append hbreaks (show behindUrl? (c :: cs ++ ds) = _ from hes)
    exact closesUrl_append (hhead hreading hfree es hes') ds

/-- Behind what is hidden no word goes on. -/
theorem glues_of_hides (h : w.hides (cs ++ [c]) = true) : (w.after cs).glues c = false := by
  induction cs generalizing w with
  | nil =>
    have houtside := (hides_cons_iff.mp h).1
    cases w <;> first | rfl | cases houtside
  | cons d cs ih => exact ih (hides_cons_iff.mp h).2

/-- Where text is read, no word goes on behind white space and punctuation. -/
theorem glues_eq_false (hw : w.isReading = true)
    (hc : Text.isWhiteSpace c = true ∨ (Token.punctuation? c).isSome = true) :
    w.glues c = false := by
  have hplain : plain.glues c = false := by
    rcases hc with hc | hc <;> simp [glues, hc]
  cases w <;> first | exact hplain | cases hw

/-! ### Tokens -/

/-- Behind a token that is no word and no at-word no word goes on. -/
theorem glues_of_scans {front : List Char} {d : Char}
    (hscan : Scans c (text ++ rest) mode kind text.length) (hcut : c :: text = front ++ [d])
    (hmode : mode ≠ .address) (hword : kind ≠ .word) (hat : kind ≠ .atWord) :
    (plain.after front).glues d = false := by
  have hspells := hscan.spells
  rw [List.take_left] at hspells
  generalize hn : text.length = n at hscan
  cases hscan with
  | address => contradiction
  | space =>
    have hblank : marks.any isBlank = false := rfl
    have hpasses : Passes 0 front [d] := passes_of_forall fun e he =>
      not_mem_marks hblank (hspells e (hcut ▸ List.mem_append_left _ he))
    refine glues_eq_false hpasses.ready.isReading (.inl ?_)
    exact Text.isWhiteSpace_of_isBlank (hspells d (hcut ▸ by simp))
  | punctuation _ hkind =>
    obtain rfl := List.length_eq_zero_iff.mp hn
    obtain ⟨rfl, hd⟩ := List.append_inj' (show [] ++ [c] = front ++ [d] from hcut) rfl
    obtain rfl : c = d := by simpa using hd
    exact glues_eq_false rfl (.inr (by rw [hkind]; rfl))
  | string _ hquote hreach =>
    rw [← hn, Token.stringTail_append_iff le_rfl] at hreach
    obtain ⟨inner, hinner, rfl⟩ := exists_quotes_of_stringTail hreach
    have hquote : isQuote c = true := by rcases hquote with rfl | rfl <;> rfl
    obtain ⟨rfl, hd⟩ := List.append_inj' (show c :: inner ++ [c] = front ++ [d] from hcut) rfl
    obtain rfl : c = d := by simpa using hd
    have hopen := (after_cons_of_quotes hquote hinner []).1
    rw [List.append_nil] at hopen
    rw [hopen]
    rfl
  | @comment _ inner n _ hslash hstar hreach =>
    subst hslash
    obtain ⟨text, rfl⟩ : ∃ text', text = '*' :: text' := by
      cases text with
      | nil => cases hn
      | cons d text => exact ⟨text, congrArg (· :: text) (List.cons.inj hstar).1⟩
    obtain rfl : text ++ rest = inner := (List.cons.inj hstar).2
    obtain rfl : text.length = n := by simpa using hn
    rw [Token.commentTail_append_iff le_rfl] at hreach
    rcases List.eq_nil_or_concat' text with rfl | ⟨inner, e, rfl⟩
    · cases hreach
    · obtain ⟨rfl, hd⟩ := List.append_inj'
        (show '/' :: '*' :: inner ++ [e] = front ++ [d] from hcut) rfl
      obtain rfl : e = d := by simpa using hd
      change (comment.after inner).glues e = false
      exact glues_of_hides (hides_comment hreach)
  | atWord => contradiction
  | word => contradiction

end Watch

open Watch (behindUrl? closesUrl closesUrl_nil closesUrl_append plain Passes)

/-- **What a mode asks of the text ahead**, so that addresses close. -/
def Token.Mode.Expects : Mode → List Char → Prop
  | .plain, _ => True
  | .behindUrl, cs => ∀ ds, cs = '(' :: ds → closesUrl ds = true
  | .address, cs => closesUrl cs = true ∧ cs.head?.any startsAddress = true

section Tokens

variable {mode : Mode} {kind : Kind} {c : Char} {text cs rest : List Char}

theorem Token.Mode.Expects.append (h : mode.Expects (c :: cs)) (rest : List Char) :
    mode.Expects (c :: cs ++ rest) := by
  cases mode with
  | plain => trivial
  | behindUrl =>
    rintro ds hds
    obtain ⟨rfl, rfl⟩ := List.cons.inj hds
    exact closesUrl_append (h cs rfl) rest
  | address => exact ⟨closesUrl_append h.1 rest, h.2⟩

/-- What an address starts with. -/
theorem Token.Mode.Expects.closesAddress (h : Mode.address.Expects (c :: cs)) :
    c ≠ ')' ∧ Watch.plain.closesAddress (c :: cs) = true := by
  obtain ⟨hcloses, hstart⟩ := h
  simp only [List.head?_cons, Option.any_some, startsAddress, Bool.and_eq_true,
    Bool.not_eq_true', bne_iff_ne] at hstart
  obtain ⟨⟨⟨hblank, hsingle⟩, hdouble⟩, hparen⟩ := hstart
  refine ⟨hparen, ?_⟩
  simpa [closesUrl, hblank, isQuote, hsingle, hdouble] using hcloses

/-- **The end of an address** is where the watch is ready for something new, and only semicolons
are read in it. -/
theorem Token.Scans.address_spec (hscan : Scans c (text ++ rest) .address kind text.length)
    (hexpects : Mode.address.Expects (c :: text ++ rest)) :
    (plain.after (c :: text)).Ready rest ∧ ∀ k ∈ plain.punctuation (c :: text), k = .semicolon := by
  obtain ⟨hparen, hclosed⟩ := Mode.Expects.closesAddress
    (show Mode.address.Expects (c :: (text ++ rest)) from hexpects)
  obtain ⟨body, behind, hbody, htail, hreading, hpunctuation⟩ :=
    Watch.addressTail_of_closesAddress rfl hclosed
  rw [Token.addressTail_cons hparen, hscan.scanAddress_eq] at htail
  obtain ⟨rfl, rfl⟩ := List.append_inj (show c :: text ++ rest = _ from hbody)
    (by simpa using htail)
  exact ⟨Watch.ready_of_isReading hreading (by simp), hpunctuation⟩

/-- **Behind a token something new can start.** -/
theorem Token.Scans.ready (hscan : Scans c (text ++ rest) mode kind text.length)
    (hexpects : mode.Expects (c :: text ++ rest)) : (plain.after (c :: text)).Ready rest := by
  by_cases hmode : mode = .address
  · subst hmode
    exact (hscan.address_spec hexpects).1
  · exact (Watch.passes_of_scans hscan hmode).ready

/-- Behind a token all addresses close if they do from its start. -/
theorem Token.Scans.urlsClose (hscan : Scans c (text ++ (cs ++ rest)) mode kind text.length)
    (hready : (plain.after (c :: text)).Ready cs)
    (h : plain.urlsClose false (c :: text ++ cs) = true) : plain.urlsClose false cs = true := by
  obtain ⟨front, d, hcut⟩ : ∃ front d, c :: text = front ++ [d] :=
    ⟨_, _, (List.dropLast_append_getLast (List.cons_ne_nil c text)).symm⟩
  rw [hcut] at hready
  rw [hcut, List.append_assoc] at h
  rw [Watch.after_append] at hready
  have hnext : plain.urlsClose ((plain.after front).glues d) cs = true :=
    hready.urlsClose_eq.symm.trans (Watch.urlsClose_of_append h)
  cases hurl : behindUrl? cs with
  | none => rwa [Watch.urlsClose_glued hurl] at hnext
  | some ds =>
    cases cs with
    | nil => rfl
    | cons e cs =>
      obtain ⟨hword, hat, hslash, hparen⟩ := Watch.endsWord_of_behindUrl? hurl
      have hfollows := hscan.follows
      have hmode : mode ≠ .address := by
        rintro rfl
        exact hparen (by simpa [Token.Follows] using hfollows)
      rwa [Watch.glues_of_scans hscan hcut hmode ?_ ?_] at hnext
      · rintro rfl
        rcases ((Token.follows_word hmode).mp hfollows).1 e rfl with he | he
        · rw [hword] at he
          cases he
        · exact hslash he.1
      · rintro rfl
        have he := (Token.follows_atWord hmode).mp hfollows e rfl
        rw [hat] at he
        cases he

/-- What a mode asks for is carried on. -/
theorem Token.Mode.Expects.after (h : mode.Expects (c :: text ++ cs))
    (hscan : Scans c (text ++ (cs ++ rest)) mode kind text.length)
    (hurls : Watch.plain.urlsClose false (c :: text ++ cs) = true) :
    (mode.after kind (c :: text) (cs ++ rest)).Expects cs := by
  rw [Mode.after]
  split
  · next hopens =>
    obtain ⟨rfl, rfl, hstart⟩ := hopens
    obtain rfl := hscan.kind_eq_parenOpen
    obtain rfl := List.length_eq_zero_iff.mp hscan.reach_eq_zero_of_parenOpen
    have hcloses : closesUrl cs = true := h cs rfl
    refine ⟨hcloses, ?_⟩
    cases cs with
    | nil => cases hcloses
    | cons d cs => exact hstart
  · split
    · next hurl =>
      obtain ⟨rfl, hurl⟩ := hurl
      rintro ds rfl
      obtain ⟨u, r, l, hname⟩ : ∃ u r l, c :: text = [u, r, l] := by
        refine List.length_eq_three.mp ?_
        simpa [Text.eqIgnoringCase] using congrArg List.length (beq_iff_eq.mp hurl)
      rw [hname] at hurl
      rw [hname] at hurls
      exact (Watch.urlsClose_cons_iff.mp hurls).1 rfl rfl ds
        (Watch.behindUrl?_eq_some_iff.mpr ⟨u, r, l, rfl, hurl⟩)
    · trivial

end Tokens

/-! ### Stretches -/

/-- Semicolons inside a parenthesis leave everything open. -/
theorem Statement.depth?_semicolons {ks : List Kind} (hks : ∀ k ∈ ks, k = .semicolon) {depth : Nat}
    (hdepth : 0 < depth) : depth? depth ks = some depth := by
  induction ks with
  | nil => rfl
  | cons k ks ih =>
    obtain ⟨rfl, hrest⟩ := List.forall_mem_cons.mp hks
    have hopen : Kind.semicolon.continuesStatement depth = true := by
      simpa [Kind.continuesStatement] using hdepth.ne'
    rw [depth?, if_pos hopen]
    exact ih hrest

variable {mode last : Mode} {cs rest : List Char} {ls : List Lexeme}

/-- **Where addresses close, the watch agrees with the grammar**: behind a stretch something new can
start, but no address, and the punctuation that is read of it opens and closes what its tokens do. -/
theorem Lexes.watched (h : Lexes mode cs rest ls last) (hurls : plain.urlsClose false cs = true)
    (hexpects : mode.Expects cs) :
    (plain.after cs).Ready rest ∧ last ≠ .address ∧ ∀ depth, (mode = .address → 0 < depth) →
      Statement.depth? depth (ls.map Lexeme.kind) =
        Statement.depth? depth (plain.punctuation cs) := by
  induction h with
  | nil mode rest =>
    refine ⟨Watch.ready_plain rest, ?_, fun _ _ => rfl⟩
    rintro rfl
    cases hexpects.1
  | @cons mode last kind c text cs rest ls hscan _ ih =>
    have hexpects' : mode.Expects (c :: text ++ (cs ++ rest)) := by
      rw [← List.append_assoc]
      exact hexpects.append rest
    have hready := hscan.ready hexpects'
    obtain ⟨hends, hlast, hrest⟩ := ih (hscan.urlsClose hready.of_append hurls)
      (hexpects.after hscan hurls)
    have hpasses : Passes _ (c :: text) (cs ++ rest) := ⟨rfl, hready⟩
    refine ⟨(hpasses.append ⟨rfl, hends⟩).ready, hlast, fun depth hdepth => ?_⟩
    have htoken : Statement.depth? depth [kind] =
        Statement.depth? depth (plain.punctuation (c :: text)) := by
      by_cases hmode : mode = .address
      · subst hmode
        obtain rfl := hscan.kind_eq_word
        exact (Statement.depth?_semicolons (hscan.address_spec hexpects').2 (hdepth rfl)).symm
      · rw [Watch.punctuation_of_scans hscan hmode, Lexeme.depth?_filter_isMark]
    rw [Watch.punctuation_append, hready.of_append.punctuation_eq, Statement.depth?_append,
      ← htoken, List.map_cons, ← List.singleton_append, Statement.depth?_append]
    cases hone : Statement.depth? depth [kind] with
    | none => rfl
    | some depth' =>
      refine hrest depth' fun hopens => ?_
      have hparen : kind = .parenOpen := by
        by_contra hkind
        rw [Mode.after, if_neg fun h => hkind h.1] at hopens
        split at hopens <;> cases hopens
      subst hparen
      obtain ⟨-, rfl⟩ : Kind.parenOpen.continuesStatement depth = true ∧
          Kind.parenOpen.depthBehind depth = depth' := by simpa [Statement.depth?] using hone
      exact Nat.succ_pos depth

/-! ### Texts that are read -/

/-- Inside a comment. -/
def Watch.isCommenting : Watch → Bool
  | .comment | .star => true
  | _ => false

/-- No comment is entered where none starts. -/
theorem Watch.isCommenting_step {w : Watch} {c : Char} (hw : w.isCommenting = false)
    (hstar : ¬(w = .slash ∧ c = '*')) : (w.step c).isCommenting = false := by
  have hstarting : (starting c).isCommenting = false := by
    unfold starting
    repeat' split
    all_goals rfl
  cases w with
  | plain => exact hstarting
  | slash => rwa [step, if_neg fun hc => hstar ⟨rfl, hc⟩]
  | quoted =>
    simp only [step]
    repeat' split
    all_goals rfl
  | escaped | quotedEscaped => rfl
  | comment | star => cases hw

/-- Without comments the watch is behind a backslash exactly if the text ends in one that is not
escaped. -/
theorem Watch.isUnescaped_after {w : Watch} {cs : List Char} (hw : w.isUnescaped = true)
    (hcomment : w.isCommenting = false) (hcomments : w.comments cs = 0) :
    (w.after cs).isUnescaped = !dangles cs := by
  fun_induction dangles cs generalizing w with
  | case1 => exact hw
  | case2 => cases w <;> first | rfl | exact Bool.noConfusion hw | exact Bool.noConfusion hcomment
  | case3 c cs ih =>
    simp only [comments_cons_eq_zero_iff] at hcomments
    obtain ⟨hback, hstar, hcomments⟩ := hcomments
    exact ih (isUnescaped_step_step hw c)
      (isCommenting_step (isCommenting_step hcomment hback) hstar) hcomments
  | case4 c cs hne₁ hne₂ ih =>
    obtain ⟨hstar, hcomments⟩ := comments_cons_eq_zero_iff.mp hcomments
    exact ih (isUnescaped_step hw (Token.ne_backslash hne₁ hne₂)) (isCommenting_step hcomment hstar)
      hcomments

/-- **The text ahead breaks off a statement**: it is empty, or starts with a semicolon or a brace. -/
def Token.Breaks (cs : List Char) : Prop :=
  ∀ c ∈ cs.head?, c = ';' ∨ c = '\x7b' ∨ c = '\x7d'

theorem Token.Breaks.stops {cs : List Char} (h : Token.Breaks cs) : Token.Stops cs :=
  fun c hc => .inr ((h c hc).imp_right (Or.imp_right .inl))

/-- Where the quote stands that closes a string. -/
theorem Token.stringTail_of_quotes {quote : Char} {inner : List Char} (h : Quotes quote inner)
    (rest : List Char) (hquote : quote ≠ '\\') :
    stringTail quote (inner ++ quote :: rest) = some (inner.length + 1) := by
  induction h with
  | nil => rw [List.nil_append, stringTail_cons_of_ne _ hquote, if_pos rfl, List.length_nil]
  | escape c _ ih =>
    rw [List.cons_append, List.cons_append, stringTail_escape, ih]
    rfl
  | char hslash hne _ ih =>
    rw [List.cons_append, stringTail_cons_of_ne _ hslash, if_neg hne, ih]
    rfl

/-- **A token starts** where no comment does and everything is closed. -/
theorem Token.exists_scans {mode : Mode} {c : Char} {cs : List Char}
    (hcomments : plain.comments (c :: cs) = 0)
    (houtside : (plain.after (c :: cs)).isOutside = true) (hexpects : mode.Expects (c :: cs)) :
    ∃ kind n, Scans c cs mode kind n ∧ kind ≠ .comment := by
  by_cases hmode : mode = .address
  · subst hmode
    obtain ⟨hparen, hclosed⟩ := hexpects.closesAddress
    obtain ⟨body, behind, hbody, htail, -⟩ := Watch.addressTail_of_closesAddress rfl hclosed
    rw [Token.addressTail_cons hparen] at htail
    obtain ⟨n, hn, -⟩ := Option.map_eq_some_iff.mp htail
    exact ⟨.word, n, .address hn, by decide⟩
  by_cases hblank : isBlank c = true
  · exact ⟨_, _, .space hmode hblank, by decide⟩
  cases hkind : Token.punctuation? c with
  | some kind =>
    refine ⟨_, _, .punctuation hmode hkind, ?_⟩
    rintro rfl
    simpa [Kind.isTrivia] using (Token.kind_of_punctuation? hkind).2.2.2
  | none =>
    by_cases hquote : isQuote c = true
    · have hstep : plain.step c = .quoted ⟨c, hquote⟩ := by
        simp [Watch.step, Watch.starting, ne_backslash_of_isQuote hquote, hquote]
      have hopen := hquote
      simp only [isQuote, Bool.or_eq_true, beq_iff_eq] at hopen
      rcases Value.Compact.exists_quotes c cs with ⟨inner, hinner, ⟨rest, rfl⟩ | ⟨slash, hslash, rfl⟩⟩
      · exact ⟨_, _, .string hmode hopen.symm (Token.stringTail_of_quotes hinner rest
          (ne_backslash_of_isQuote hquote)), by decide⟩
      · rw [(Watch.after_cons_of_quotes hquote hinner slash).1] at houtside
        rcases hslash with rfl | rfl <;> cases houtside
    by_cases hat : c = '@'
    · exact ⟨_, _, .atWord hmode hat, by decide⟩
    have hstart : Token.StartsWord c cs := by
      obtain ⟨hdouble, hsingle⟩ : c ≠ '"' ∧ c ≠ '\'' := by simpa [isQuote] using hquote
      refine ⟨by simpa using hblank, hkind, hsingle, hdouble, hat, ?_⟩
      rintro ⟨rfl, hstar⟩
      obtain ⟨cs, rfl⟩ := List.head?_eq_some_iff.mp hstar
      have hopens : 0 < plain.comments ('/' :: '*' :: cs) :=
        Nat.lt_add_left _ (Nat.lt_add_right _ Nat.one_pos)
      exact hopens.ne' hcomments
    exact ⟨_, _, .word hmode hstart, by decide⟩

/-- A token can stand in front of what breaks off a statement, unless it is an address or ends
inside an escape. -/
theorem Token.Breaks.follows {mode : Mode} {kind : Kind} {text cs : List Char}
    (h : Token.Breaks cs) (hmode : mode ≠ .address)
    (hdangle : kind = .word → dangles text = true → cs = []) : Token.Follows mode kind text cs := by
  by_cases hspace : kind = .space
  · subst hspace
    refine (Token.follows_space hmode).mpr fun c hc => ?_
    rcases h c hc with rfl | rfl | rfl <;> rfl
  · exact h.stops.follows hmode hspace hdangle

theorem Token.Breaks.head_ne_star {cs : List Char} (h : Token.Breaks cs) : cs.head? ≠ some '*' := by
  intro hstar
  rcases h '*' hstar with h | h | h <;> cases h

/-- **A text that can be read to its end**: no comment starts in it, everything is closed at its
end, and all addresses close. -/
structure Watch.Readable (cs : List Char) : Prop where
  comments : plain.comments cs = 0
  reading : (plain.after cs).isReading = true
  urls : plain.urlsClose false cs = true

/-- **A readable text is read to its end** in front of what breaks off a statement, and there is no
comment in it. -/
theorem Watch.Readable.exists_lexes {mode : Mode} {cs rest : List Char} (h : Watch.Readable cs)
    (hexpects : mode.Expects cs) (hrest : Token.Breaks rest) :
    ∃ ls last, Lexes mode cs rest ls last ∧ ∀ l ∈ ls, l.kind ≠ .comment := by
  obtain ⟨hcomments, hreading, hurls⟩ := h
  induction hlength : cs.length using Nat.strong_induction_on generalizing mode cs with
  | _ length ih =>
  cases cs with
  | nil => exact ⟨[], mode, .nil _ _, by simp⟩
  | cons c cs =>
    obtain ⟨houtside, hunescaped⟩ := Bool.and_eq_true_iff.mp hreading
    obtain ⟨kind, n, hscan, hkind⟩ := Token.exists_scans hcomments houtside hexpects
    obtain ⟨text, cs, rfl, rfl⟩ : ∃ text more, cs = text ++ more ∧ n = text.length :=
      ⟨cs.take n, cs.drop n, (List.take_append_drop n cs).symm,
        (List.length_take_of_le hscan.le_length).symm⟩
    have hready := hscan.ready hexpects
    -- What stands behind the token is watched as at the start of a text.
    obtain ⟨hafter, hnone⟩ := hready.eq_plain
    rw [← List.cons_append, Watch.comments_append, Nat.add_eq_zero_iff, hnone] at hcomments
    rw [← List.cons_append, Watch.after_append] at hreading
    have hreading' : (plain.after cs).isReading = true := by
      by_cases hnil : cs = []
      · rw [hnil]
        rfl
      · rwa [hafter hnil] at hreading
    have hfollows : Token.Follows mode kind (c :: text) (cs ++ rest) := by
      by_cases hnil : cs = []
      · subst hnil
        refine hrest.follows ?_ fun _ hdangle => ?_
        · rintro rfl
          cases hscan.follows
        · have hown := Watch.isUnescaped_after rfl rfl hcomments.1
          rw [hdangle, Bool.not_true, ← Bool.not_eq_true] at hown
          exact absurd (Bool.and_eq_true_iff.mp hreading).2 hown
      · have hsame : SameStart (cs ++ []) (cs ++ rest) := .of_append hnil (by simp) hrest.head_ne_star
        rw [List.append_nil] at hsame
        exact hsame.follows hscan.follows
    have hscan' := hscan.change hfollows
    obtain ⟨ls, last, hls, hno⟩ := ih cs.length (by simp [← hlength]) (hexpects.after hscan' hurls)
      hcomments.2 hreading' (hscan'.urlsClose hready hurls) rfl
    exact ⟨_, last, .cons hscan' hls, List.forall_mem_cons.mpr ⟨hkind, hno⟩⟩

/-! ### Lengths -/

section Lengths

open Value.Length (isPlain isNameChar IsLength)
open Watch (mark?)

variable {previous : Option Char} {w : Watch} {glued : Bool} {b c : Char} {cs ds : List Char}

namespace Watch

/-- A character of a length starts nothing and ends nothing. -/
theorem spec_of_plain (w : Watch) (hc : isPlain c = true ∨ c = '+') :
    w.step c = w.settled ∧ mark? c = none ∧ isBlank c = false ∧ isQuote c = false ∧ c ≠ ')' := by
  have hplain : marks.any (fun d => isPlain d || d == '+') = false := rfl
  have hmark : c ∉ marks := not_mem_marks hplain (by simpa using hc)
  refine ⟨w.step_eq_settled hmark ?_, ?_, ?_, (not_mem_marks_iff.mp hmark).2.1, ?_⟩
  · rintro rfl
    exact absurd hc (by decide)
  · rcases hc with hc | rfl
    · rw [mark?, Value.Length.punctuation?_of_plain hc]
      rfl
    · rfl
  · rcases hc with hc | rfl
    · exact Value.Length.isBlank_of_plain hc
    · rfl
  · rintro rfl
    exact absurd hc (by decide)

/-- Behind a character of a length a word goes on. -/
theorem glues_of_plain (w : Watch) (hc : isPlain c = true) : w.glues c = w.settled.isOutside := by
  have hwhite : Text.isWhiteSpace c = false := by
    by_contra hwhite
    rw [Value.Length.isPlain_of_isWhiteSpace (by simpa using hwhite)] at hc
    cases hc
  have hquote := (w.spec_of_plain (.inl hc)).2.2.2.1
  cases w <;>
    simp [glues, hwhite, hquote, Value.Length.punctuation?_of_plain hc, isOutside, settled]

/-- A length does not matter for the end of an address. -/
theorem closesAddress_of_plain (w : Watch) (hne : cs ≠ [])
    (hcs : ∀ c ∈ cs, isPlain c = true ∨ c = '+') :
    w.closesAddress (cs ++ ds) = w.settled.closesAddress ds := by
  induction cs generalizing w with
  | nil => exact absurd rfl hne
  | cons c cs ih =>
    obtain ⟨hc, hcs⟩ := List.forall_mem_cons.mp hcs
    obtain ⟨hstep, hmark, -, -, hparen⟩ := w.spec_of_plain hc
    rw [List.cons_append, closesAddress_cons, if_neg fun h => hparen h.1, hmark, hstep]
    by_cases hnil : cs = []
    · simp [hnil]
    · simp [ih _ hnil hcs, settled_settled]

/-- Inside a length no address starts. -/
theorem urlsClose_of_plain (hw : w.settled = w) (hcs : ∀ c ∈ cs, isPlain c = true) :
    w.urlsClose w.isOutside (cs ++ ds) = w.urlsClose w.isOutside ds := by
  induction cs with
  | nil => rfl
  | cons c cs ih =>
    obtain ⟨hc, hcs⟩ := List.forall_mem_cons.mp hcs
    rw [List.cons_append, urlsClose, (w.spec_of_plain (.inl hc)).1, w.glues_of_plain hc, hw, ih hcs]
    cases houtside : w.isOutside <;> simp [isReading, houtside]

/-- **A length does not matter** for the addresses behind it. -/
theorem urlsClose_of_length (w : Watch) (hcs : IsLength cs) :
    w.urlsClose glued (cs ++ ds) = w.settled.urlsClose w.settled.isOutside ds := by
  obtain ⟨c, cs, rfl, hlead⟩ := hcs.exists_lead
  obtain ⟨hc, hrest⟩ := List.forall_mem_cons.mp hcs.plain
  have hurl : behindUrl? (c :: (cs ++ ds)) = none := by
    by_contra hurl
    obtain ⟨es, hes⟩ := Option.ne_none_iff_exists'.mp hurl
    have hlower := toLower_of_behindUrl? hes
    rw [Value.Length.toLower_of_isLead hlead] at hlower
    rw [hlower] at hlead
    cases hlead
  rw [List.cons_append, urlsClose, hurl, (w.spec_of_plain (.inl hc)).1, w.glues_of_plain hc,
    urlsClose_of_plain w.settled_settled hrest]
  simp

/-- The same with a sign in front. -/
theorem urlsClose_of_signed (w : Watch) {sign : List Char} (hsign : sign = [] ∨ sign = ['+'])
    (hcs : IsLength cs) :
    w.urlsClose glued (sign ++ (cs ++ ds)) = w.settled.urlsClose w.settled.isOutside ds := by
  rcases hsign with rfl | rfl
  · exact w.urlsClose_of_length hcs
  · have hurl : behindUrl? ('+' :: (cs ++ ds)) = none := by
      unfold behindUrl?
      split
      · next hcut =>
        obtain ⟨rfl, -⟩ := List.cons.inj hcut
        rfl
      · rfl
    rw [List.singleton_append, urlsClose, hurl, (w.spec_of_plain (.inr rfl)).1,
      w.settled.urlsClose_of_length hcs, settled_settled]
    simp

end Watch

namespace Rewritten

/-- The characters of a length and its sign. -/
theorem plain_of_signed {sign old : List Char} (hsign : sign = [] ∨ sign = ['+'])
    (hold : IsLength old) :
    sign ++ old ≠ [] ∧ ∀ c ∈ sign ++ old, isPlain c = true ∨ c = '+' := by
  refine ⟨by simp [hold.ne_nil], fun c hc => ?_⟩
  rcases List.mem_append.mp hc with hc | hc
  · rcases hsign with rfl | rfl
    · cases hc
    · exact .inr (List.mem_singleton.mp hc)
  · exact .inl (hold.plain c hc)

theorem closesAddress_eq (h : Rewritten previous cs ds) (w : Watch) :
    w.closesAddress ds = w.closesAddress cs := by
  induction h generalizing w with
  | nil => rfl
  | keep c _ ih => rw [Watch.closesAddress_cons, Watch.closesAddress_cons, ih]
  | length _ hsign hold hnew _ ih =>
    obtain ⟨hne, hplain⟩ := plain_of_signed hsign hold
    rw [← List.append_assoc, w.closesAddress_of_plain hne hplain,
      w.closesAddress_of_plain hnew.ne_nil fun c hc => .inl (hnew.plain c hc), ih]

/-- No length is quoted. -/
theorem closesUrl_eq (h : Rewritten previous cs ds) : closesUrl ds = closesUrl cs := by
  have hquoted : (ds.dropWhile isBlank).head?.any isQuote =
      (cs.dropWhile isBlank).head?.any isQuote := by
    induction h with
    | nil => rfl
    | keep c _ ih =>
      rw [List.dropWhile_cons, List.dropWhile_cons]
      split
      · exact ih
      · rfl
    | @length _ sign old new cs ds _ hsign hold hnew _ _ =>
      have hnone {text more : List Char} (hne : text ≠ [])
          (htext : ∀ c ∈ text, isPlain c = true ∨ c = '+') :
          ((text ++ more).dropWhile isBlank).head?.any isQuote = false := by
        obtain ⟨c, text, rfl⟩ := List.exists_cons_of_ne_nil hne
        obtain ⟨-, -, hblank, hquote, -⟩ := Watch.plain.spec_of_plain (htext c List.mem_cons_self)
        rw [List.cons_append, List.dropWhile_cons_of_neg (by simp [hblank])]
        simpa using hquote
      obtain ⟨hne, hplain⟩ := plain_of_signed hsign hold
      rw [← List.append_assoc, hnone hne hplain,
        hnone hnew.ne_nil fun c hc => .inl (hnew.plain c hc)]
  rw [closesUrl, closesUrl, hquoted, h.closesAddress_eq]

/-- Behind a name the text stays as long as the name goes on. -/
theorem of_names {front : List Char} (hb : isNameChar b = true)
    (hfront : ∀ c ∈ front, isNameChar c = true) :
    (∀ {cs ds}, Rewritten (some b) (front ++ c :: cs) ds →
      ∃ ds', ds = front ++ c :: ds' ∧ Rewritten (some c) cs ds') ∧
    ∀ {cs ds}, Rewritten (some b) cs (front ++ c :: ds) →
      ∃ cs', cs = front ++ c :: cs' ∧ Rewritten (some c) cs' ds := by
  have hhead {b d : Char} {cs ds : List Char} (h : Rewritten (some b) cs (d :: ds))
      (hb : isNameChar b = true) : ∃ cs', cs = d :: cs' ∧ Rewritten (some d) cs' ds := by
    cases cs with
    | nil => cases h.eq_nil_iff.mpr rfl
    | cons e cs =>
      obtain ⟨ds', hcut, hrest⟩ := h.of_name hb
      obtain ⟨rfl, rfl⟩ := List.cons.inj hcut
      exact ⟨cs, rfl, hrest⟩
  induction front generalizing b with
  | nil => exact ⟨fun h => h.of_name hb, fun h => hhead h hb⟩
  | cons d front ih =>
    obtain ⟨hd, hfront⟩ := List.forall_mem_cons.mp hfront
    obtain ⟨hleft, hright⟩ := ih hd hfront
    refine ⟨fun h => ?_, fun h => ?_⟩
    · obtain ⟨ds', rfl, hrest⟩ := h.of_name hb
      obtain ⟨es, rfl, hes⟩ := hleft hrest
      exact ⟨es, rfl, hes⟩
    · obtain ⟨cs', rfl, hrest⟩ := hhead h hb
      obtain ⟨es, rfl, hes⟩ := hright hrest
      exact ⟨es, rfl, hes⟩

/-- The name `url` stays, and so does the parenthesis behind it. -/
theorem closesUrl_behindUrl? {u : Char} (h : Rewritten (some u) cs ds) :
    (behindUrl? (u :: ds)).all closesUrl = (behindUrl? (u :: cs)).all closesUrl := by
  have hname {u r l : Char} (hurl : Text.eqIgnoringCase [u, r, l] ['u', 'r', 'l'] = true) :
      isNameChar u = true ∧ ∀ c ∈ [r, l], isNameChar c = true := by
    obtain ⟨hu, hr, hl⟩ : u.toLower = 'u' ∧ r.toLower = 'r' ∧ l.toLower = 'l' := by
      simpa [Text.eqIgnoringCase] using hurl
    have hletter {c d : Char} (hc : c.toLower = d) (hd : isPlain d = true) : isNameChar c = true :=
      Value.Length.isNameChar_of_isPlain (Value.Length.isPlain_of_toLower (hc ▸ hd))
    simp [hletter hu rfl, hletter hr rfl, hletter hl rfl]
  cases hcs : behindUrl? (u :: cs) with
  | some es =>
    obtain ⟨_, r, l, hcut, heq⟩ := Watch.behindUrl?_eq_some_iff.mp hcs
    obtain ⟨rfl, rfl⟩ := List.cons.inj hcut
    obtain ⟨es', rfl, hes⟩ := (of_names (hname heq).1 (hname heq).2).1 h
    have hds : behindUrl? (u :: ([r, l] ++ '(' :: es')) = some es' :=
      Watch.behindUrl?_eq_some_iff.mpr ⟨_, r, l, rfl, heq⟩
    rw [hds]
    exact hes.closesUrl_eq
  | none =>
    cases hds : behindUrl? (u :: ds) with
    | none => rfl
    | some es =>
      obtain ⟨_, r, l, hcut, heq⟩ := Watch.behindUrl?_eq_some_iff.mp hds
      obtain ⟨rfl, rfl⟩ := List.cons.inj hcut
      obtain ⟨es', rfl, -⟩ := (of_names (hname heq).1 (hname heq).2).2 h
      have hsome := Watch.behindUrl?_eq_some_iff.mpr
        ⟨_, r, l, show u :: ([r, l] ++ '(' :: es') = u :: r :: l :: '(' :: es' from rfl, heq⟩
      rw [hsome] at hcs
      cases hcs

/-- **Rewritten lengths do not matter** for the addresses of a text. -/
theorem urlsClose_eq (h : Rewritten previous cs ds) (w : Watch) (glued : Bool) :
    w.urlsClose glued ds = w.urlsClose glued cs := by
  induction h generalizing w glued with
  | nil => rfl
  | keep u h ih => rw [Watch.urlsClose, Watch.urlsClose, h.closesUrl_behindUrl?, ih]
  | length _ hsign hold hnew _ ih =>
    rw [w.urlsClose_of_signed hsign hold, w.urlsClose_of_length hnew, ih]

end Rewritten

end Lengths

end LosslessCss
