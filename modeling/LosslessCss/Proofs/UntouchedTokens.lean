import LosslessCss.Proofs.Boundaries
import LosslessCss.Proofs.DeclarationTokens
import LosslessCss.Proofs.Importance
import LosslessCss.Proofs.ScanPlaces

/-!
# Tokens that a conversion leaves alone

Two scans look for strings, comments and addresses.  Lexical analysis cuts a sheet into tokens, and
the scan for lengths skips stretches of a value, without knowing of tokens.  As long as both agree
on where these stretches end, no string, comment or address is changed when lengths are converted
(`pxToRem_keeps_tokens`).

They do not always agree.  A backslash takes the next character along for the one and, outside of
strings and addresses, not for the other, so an escaped quote starts a string for the scan only.
Inside an address a quote means nothing to the tokens, but starts a string for the scan; and what
the scan takes for an address may be ended by a comment.  `Lexeme.inStep` says that none of this has
happened yet.  It is a condition on each token and on whether the scan is inside an address there,
and it keeps the two scans together from one token to the next (`Value.Length.Boundary.step`).

## Main Definitions

* `Lexeme.inStep` : both scans agree on a run of tokens
* `Value.Length.Boundary` : where both stand between two tokens

## Main Statements

* `Value.Length.Boundary.step`, `Lexes.boundary` : one token, and a run of them
* `pxToRem_keeps_tokens`
* `exists_string_converted` : a string that is changed
-/

namespace LosslessCss

open String (utf8Len utf8Len_append utf8Len_cons)
open Text

/-! ### The scan and the tokens side by side -/

open Token (Mode Scans)
open Value.Length (endsInUrl keepsAddress isNameChar)

/-- Whether the scan for lengths is inside an address behind a token. -/
def Lexeme.insideBehind (inside : Bool) (front : List Char) (l : Lexeme) : Bool :=
  if l.kind = .parenOpen then inside || endsInUrl front
  else if l.kind = .parenClose then false
  else inside

/-- **A token that the scan for lengths takes for what it is.**  Inside an address, nothing but a
string has a quote, and nothing but a parenthesis closes it.  Outside, a word has neither a quote
nor the mark of a comment.  What is escaped counts for the scan outside, and does not count
inside. -/
def Lexeme.keepsStep (inside : Bool) (l : Lexeme) : Bool :=
  if inside then l.kind == .string || l.kind == .parenClose || keepsAddress l.text
  else l.kind != .word || !l.text.any Value.isQuote && decide (¬['/', '*'] <:+: l.text)

/-- **The scan for lengths is in step with the tokens** of a text, from the place behind `front`
on. -/
def Lexeme.inStep (inside : Bool) (front : List Char) : List Lexeme → Bool
  | [] => true
  | l :: ls =>
    l.keepsStep inside && inStep (l.insideBehind inside front) (front ++ l.text) ls

namespace Value.Length

/-- **Between two tokens** the scan for lengths stands where the lexical grammar has it. -/
structure Boundary (mode : Mode) (inside : Bool) (front rest : List Char) : Prop where
  scan : if inside then Inside front rest else Outside front rest
  address : mode = .address → inside = true
  url : mode = .behindUrl → endsInUrl front = true
  glued : front.getLast?.any isNameChar = true → ∀ c ∈ rest.head?, c.toLower ≠ 'u'

theorem boundary_nil (rest : List Char) : Boundary .plain false [] rest where
  scan := outside_nil rest
  address := by simp
  url := by simp
  glued := by simp

section Tokens

variable {mode : Mode} {kind : Token.Kind} {c : Char} {text front rest : List Char} {inside : Bool}

/-- A letter ends neither a word nor an at-word. -/
theorem not_follows_of_plain {d : Char} (hplain : isPlain d = true) (hhead : d ∈ rest.head?)
    (hfollows : Token.Follows mode kind (c :: text) rest) : kind ≠ .word ∧ kind ≠ .atWord := by
  obtain ⟨rest, rfl⟩ := List.head?_eq_some_iff.mp hhead
  by_cases hmode : mode = .address
  · subst hmode
    obtain rfl : d = ')' := by simpa [Token.Follows] using hfollows
    cases hplain
  constructor <;> rintro rfl
  · exact not_wordEnds_of_plain hplain rest ((Token.follows_word hmode).mp hfollows).1
  · have hends := (Token.follows_atWord hmode).mp hfollows d rfl
    rw [endsAtWord_of_plain hplain] at hends
    cases hends

/-- **A token that ends in a name** is not followed by the name of an address. -/
theorem not_glued (hscan : Scans c (text ++ rest) mode kind text.length)
    (hname : (front ++ c :: text).getLast?.any isNameChar = true) :
    ∀ d ∈ rest.head?, d.toLower ≠ 'u' := by
  rw [List.getLast?_append_of_ne_nil _ (by simp)] at hname
  intro d hd hu
  obtain ⟨hword, hat⟩ := not_follows_of_plain (isPlain_of_toLower (hu ▸ rfl)) hd hscan.follows
  rw [hscan.getLast?_isNameChar hword hat] at hname
  cases hname

/-- **What a stretch starts with**: a quote, the mark of a comment, or the name of an address. -/
theorem starts_of_protected {previous : Option Char} {d : Char} {cs : List Char}
    (h : protectedTail? previous d cs ≠ none) :
    isQuote d = true ∨ (d = '/' ∧ cs.head? = some '*') ∨ ∃ name more, cs = name ++ '(' :: more ∧
      Text.eqIgnoringCase (d :: name) ['u', 'r', 'l'] = true := by
  unfold protectedTail? at h
  split at h
  · next hquote => exact .inl hquote
  · split at h
    · next hcomment => exact .inr (.inl hcomment)
    · split at h
      · next haddress =>
        exact .inr (.inr (eqIgnoringCase_url_iff.mp (Bool.and_eq_true_iff.mp haddress).2))
      · contradiction

/-- **A token in which the scan starts nothing**: no quote, no mark of a comment, and no letter in
front of a parenthesis.  Behind its last letter no letter follows. -/
structure Harmless (part rest : List Char) : Prop where
  quote : ∀ d ∈ part, isQuote d = false
  comment : ∀ a b, part = a ++ '/' :: b → (b ++ rest).head? ≠ some '*'
  paren : ∀ a d b, part = a ++ d :: '(' :: b → isPlain d = false
  follows : ∀ a d, part = a ++ [d] → isPlain d = true → ∀ e ∈ rest.head?, isPlain e = false

/-- Only an address starts in such a token, and only at its last three letters. -/
theorem Harmless.starts {part : List Char} (h : Harmless part rest) {previous : Option Char}
    {a b : List Char} {d : Char} (hcut : part = a ++ d :: b)
    (hsome : protectedTail? previous d (b ++ rest) ≠ none) :
    Text.eqIgnoringCase (d :: b) ['u', 'r', 'l'] = true ∧ rest.head? = some '(' := by
  rcases starts_of_protected hsome with hquote | ⟨rfl, hstar⟩ | ⟨name, more, hmore, hname⟩
  · rw [h.quote d (by simp [hcut])] at hquote
    cases hquote
  · exact absurd hstar (h.comment a b hcut)
  · have hplain : ∀ e ∈ d :: name, isPlain e = true := fun e he => by
      have hlower : e.toLower ∈ (d :: name).map Char.toLower := List.mem_map_of_mem he
      rw [eq_of_beq hname] at hlower
      refine isPlain_of_toLower ?_
      revert hlower
      generalize e.toLower = u
      simp only [List.map_cons, List.map_nil, List.mem_cons, List.not_mem_nil, or_false]
      rintro (rfl | rfl | rfl) <;> rfl
    rcases List.append_eq_append_iff.mp hmore with ⟨x, rfl, hx⟩ | ⟨x, rfl, hx⟩
    · cases x with
      | nil => exact ⟨by simpa using hname, by simp [hx]⟩
      | cons e x =>
        obtain ⟨init, z, hz⟩ := (List.eq_nil_or_concat' (d :: b)).resolve_left (by simp)
        have hlast := h.follows (a ++ init) z (by rw [hcut, hz, List.append_assoc])
          (hplain z (by rw [← List.cons_append, hz]; simp)) e (by simp [hx])
        rw [hplain e (by simp)] at hlast
        cases hlast
    · cases x with
      | nil => exact ⟨by simpa using hname, by simp at hx; simp [← hx]⟩
      | cons e x =>
        obtain ⟨rfl, -⟩ := List.cons.inj hx
        obtain ⟨init, z, hz⟩ := (List.eq_nil_or_concat' (d :: name)).resolve_left (by simp)
        have hlast := h.paren (a ++ init) z x (by
          rw [hcut, ← List.cons_append, hz]
          simp)
        rw [hplain z (by rw [hz]; simp)] at hlast
        cases hlast

/-- Marks and blank space start nothing. -/
theorem harmless_of_forall {part : List Char}
    (h : ∀ d ∈ part, isQuote d = false ∧ d ≠ '/' ∧ isPlain d = false) (rest : List Char) :
    Harmless part rest where
  quote := fun d hd => (h d hd).1
  comment := by
    rintro a b rfl
    exact absurd rfl (h '/' (by simp)).2.1
  paren := by
    rintro a d b rfl
    exact (h d (by simp)).2.2
  follows := by
    rintro a d rfl hplain
    rw [(h d (by simp)).2.2] at hplain
    cases hplain

/-- Blank space and punctuation are no quotes. -/
theorem isQuote_eq_false {d : Char} (h : Token.isBlank d = true ∨ Token.punctuation? d ≠ none) :
    isQuote d = false := by
  by_contra hquote
  simp only [isQuote, Bool.not_eq_false, Bool.or_eq_true, beq_iff_eq] at hquote
  rcases hquote with rfl | rfl <;> rcases h with h | h <;> first | cases h | exact h rfl

/-- In an at-word the scan starts nothing. -/
theorem harmless_of_atWord (htext : ∀ d ∈ text, Token.endsAtWord d = false)
    (hrest : ∀ e ∈ rest.head?, isPlain e = false) : Harmless ('@' :: text) rest := by
  have hne {e : Char} (he : Token.endsAtWord e = true) (hat : e ≠ '@') : e ∉ '@' :: text := by
    intro hmem
    rcases List.mem_cons.mp hmem with rfl | hmem
    · exact hat rfl
    · rw [htext e hmem] at he
      cases he
  refine ⟨fun d hd => ?_, ?_, ?_, fun a d _ _ => hrest⟩
  · by_contra hquote
    simp only [isQuote, Bool.not_eq_false, Bool.or_eq_true, beq_iff_eq] at hquote
    rcases hquote with rfl | rfl
    · exact hne rfl (by decide) hd
    · exact hne rfl (by decide) hd
  · intro a b hcut
    exact absurd (by simp [hcut]) (hne (e := '/') rfl (by decide))
  · intro a d b hcut
    exact absurd (by simp [hcut]) (hne (e := '(') rfl (by decide))

/-- In a word without quotes and the mark of a comment the scan starts nothing. -/
theorem harmless_of_word (hword : Token.scanWord c text = text.length)
    (hquote : ∀ d ∈ c :: text, isQuote d = false) (hcomment : ¬['/', '*'] <:+: c :: text)
    (hstar : rest.head? ≠ some '*') (hrest : ∀ e ∈ rest.head?, isPlain e = false) :
    Harmless (c :: text) rest := by
  refine ⟨hquote, fun a b hcut hhead => ?_, fun a d b hcut => ?_, fun a d _ _ => hrest⟩
  · cases b with
    | nil => exact hstar hhead
    | cons e b =>
      obtain rfl : e = '*' := by simpa using hhead
      exact hcomment ⟨a, b, by rw [hcut]; simp⟩
  · -- A parenthesis in a word is escaped.
    obtain ⟨z, hz⟩ : ∃ z, a ++ [d] = c :: z := by
      cases a with
      | nil => exact ⟨[], by rw [(List.cons.inj hcut).1]; rfl⟩
      | cons e a => exact ⟨a ++ [d], by rw [(List.cons.inj hcut).1]; rfl⟩
    rw [List.append_cons, hz, List.cons_append, List.cons.injEq] at hcut
    rw [hcut.2] at hword
    have hlast := Token.getLast?_of_dangles (Token.dangles_of_scanWord rfl hword).1
    rw [← hz, List.getLast?_concat] at hlast
    rw [Option.some.inj hlast]
    rfl

/-- **Outside, the scan starts nothing** in a token that it takes for what it is, unless it is a
string or a comment. -/
theorem harmless_of_scans (hscan : Scans c (text ++ rest) mode kind text.length)
    (hmode : mode ≠ .address) (hstring : kind ≠ .string) (hcomment : kind ≠ .comment)
    (hstep : Lexeme.keepsStep false ⟨kind, c :: text⟩ = true) : Harmless (c :: text) rest := by
  have hfollows := hscan.follows
  have hspells := hscan.spells
  rw [List.take_left] at hspells
  have hletters (hends : kind = .word ∨ kind = .atWord) : ∀ e ∈ rest.head?, isPlain e = false := by
    intro e he
    by_contra hplain
    obtain ⟨hword, hat⟩ := not_follows_of_plain (by simpa using hplain) he hfollows
    exact hends.elim hword hat
  generalize hn : text.length = n at hscan
  cases hscan with
  | address | string | comment => contradiction
  | space =>
    refine harmless_of_forall (fun d hd => ?_) rest
    have hblank : Token.isBlank d = true := hspells d hd
    refine ⟨isQuote_eq_false (.inl hblank), ?_, isPlain_of_isBlank hblank⟩
    rintro rfl
    cases hblank
  | punctuation _ hkind =>
    obtain rfl := List.length_eq_zero_iff.mp hn
    refine harmless_of_forall (fun d hd => ?_) rest
    obtain rfl := List.mem_singleton.mp hd
    refine ⟨isQuote_eq_false (.inr (by simp [hkind])), ?_, isPlain_of_punctuation? hkind⟩
    rintro rfl
    cases hkind
  | atWord _ hat =>
    subst hat
    have htext := (Token.length_takeWhile_append_iff.mp hn.symm).1
    exact harmless_of_atWord (fun d hd => by simpa using htext d hd) (hletters (.inr rfl))
  | word =>
    rw [Token.follows_word hmode] at hfollows
    have hkeeps : (∀ d ∈ c :: text, isQuote d = false) ∧ ¬['/', '*'] <:+: c :: text := by
      simpa [Lexeme.keepsStep] using hstep
    exact harmless_of_word (Token.scanWord_append_eq_length_iff.mp hn.symm).1 hkeeps.1 hkeeps.2
      hfollows.1.head_ne_star (hletters (.inl rfl))

/-- **Outside, a token in which nothing starts.** -/
theorem Outside.pass_scans (h : Outside front (c :: text ++ rest))
    (hscan : Scans c (text ++ rest) mode kind text.length) (hmode : mode ≠ .address)
    (hstring : kind ≠ .string) (hcomment : kind ≠ .comment)
    (hparen : kind = .parenOpen → endsInUrl front = false)
    (hstep : Lexeme.keepsStep false ⟨kind, c :: text⟩ = true) :
    Outside (front ++ c :: text) rest := by
  refine h.pass (fun hopen => ?_) fun a d b hcut hsome =>
    (harmless_of_scans hscan hmode hstring hcomment hstep).starts hcut hsome
  obtain rfl : c = '(' := by simpa using hopen
  exact hparen (hscan.unique (.punctuation hmode rfl)).1

/-- A string is closed by the quote that opens it. -/
theorem string_of_scans (hscan : Scans c (text ++ rest) mode .string text.length) :
    isQuote c = true ∧ Token.stringTail c text = some text.length := by
  generalize hkind : Token.Kind.string = kind at hscan
  generalize hn : text.length = n at hscan
  cases hscan with
  | string _ hquote hreach =>
    rw [← hn, Token.stringTail_append_iff le_rfl] at hreach
    exact ⟨by rcases hquote with rfl | rfl <;> rfl, hn ▸ hreach⟩
  | punctuation _ hpunct => exact absurd hkind.symm (Token.kind_of_punctuation? hpunct).2.1
  | _ => cases hkind

/-- **Strings and comments** are stretches for the scan as well. -/
theorem protected_of_scans (hscan : Scans c (text ++ rest) mode kind text.length)
    (hkind : kind = .string ∨ kind = .comment) :
    (∀ previous, protectedTail? previous c (text ++ rest) = some text.length) ∧
      (isNumeric c = false ∧ c ≠ '(') ∧ ∀ d ∈ (c :: text).getLast?, closes d = true := by
  rcases hkind with rfl | rfl
  · obtain ⟨hquote, hreach⟩ := string_of_scans hscan
    refine ⟨fun previous => ?_, ?_, fun d hd => ?_⟩
    · rw [protectedTail?, if_pos hquote, quotedTail_append hreach]
    · simp only [isQuote, Bool.or_eq_true, beq_iff_eq] at hquote
      rcases hquote with rfl | rfl <;> decide
    · rw [List.getLast?_cons, Token.getLast?_of_stringTail hreach] at hd
      obtain rfl : c = d := by simpa using hd
      simp [closes, hquote]
  · obtain ⟨inner, hinner, hreach⟩ := hscan.exists_inner
    obtain ⟨rfl, rfl⟩ := List.cons.inj hinner
    refine ⟨fun previous => ?_, by decide, fun d hd => ?_⟩
    · have htail : ('*' :: (inner ++ ['*', '/']) ++ rest).tail = inner ++ ['*', '/'] ++ rest := rfl
      rw [protectedTail?, if_neg (by decide), if_pos ⟨rfl, rfl⟩, htail, commentLength,
        (Token.commentTail_append_iff (by simp)).mpr hreach]
      simp
    · rw [← List.cons_append, ← List.cons_append, List.getLast?_append_of_ne_nil _ (by simp)] at hd
      obtain rfl : '/' = d := by simpa using hd
      rfl

/-- A token that is a closing parenthesis is one. -/
theorem close_of_scans (hscan : Scans c (text ++ rest) mode .parenClose text.length) :
    c = ')' ∧ text = [] ∧ mode ≠ .address := by
  generalize hkind : Token.Kind.parenClose = kind at hscan
  generalize hn : text.length = n at hscan
  cases hscan with
  | punctuation hmode hpunct =>
    subst hkind
    obtain rfl := List.length_eq_zero_iff.mp hn
    unfold Token.punctuation? at hpunct
    split at hpunct <;> first | exact ⟨rfl, rfl, hmode⟩ | cases hpunct
  | _ => cases hkind

/-- **Inside an address** one token is passed, or closes it. -/
theorem Inside.step (h : Inside front (c :: text ++ rest))
    (hscan : Scans c (text ++ rest) mode kind text.length)
    (hstep : Lexeme.keepsStep true ⟨kind, c :: text⟩ = true) :
    (if Lexeme.insideBehind true front ⟨kind, c :: text⟩ then Inside (front ++ c :: text) rest
      else Outside (front ++ c :: text) rest) ∧
      (kind = .string ∨ kind = .comment ∨ mode = .address →
        Covers (front ++ (c :: text ++ rest)) front (c :: text)) := by
  by_cases hclose : kind = .parenClose
  · subst hclose
    obtain ⟨rfl, rfl, hmode⟩ := close_of_scans hscan
    rw [if_neg (by simp [Lexeme.insideBehind])]
    exact ⟨h.close, fun hkind => by simp_all⟩
  · have hpart : addressLength (c :: text ++ rest) = (c :: text).length + addressLength rest := by
      simp only [Lexeme.keepsStep, if_true, Bool.or_eq_true, beq_iff_eq, hclose, or_false] at hstep
      rcases hstep with rfl | hkeeps
      · obtain ⟨hquote, hreach⟩ := string_of_scans hscan
        exact addressLength_string hquote hreach rest
      · exact addressLength_append hkeeps rest
    obtain ⟨hcovers, hinside⟩ := h.pass hpart
    have hbehind : Lexeme.insideBehind true front ⟨kind, c :: text⟩ = true := by
      simp [Lexeme.insideBehind, hclose]
    rw [if_pos hbehind]
    exact ⟨hinside, fun _ => hcovers⟩

/-- **Outside** one token is skipped, starts an address, or is passed. -/
theorem Outside.step (h : Outside front (c :: text ++ rest)) (hmode : mode ≠ .address)
    (hscan : Scans c (text ++ rest) mode kind text.length)
    (hstep : Lexeme.keepsStep false ⟨kind, c :: text⟩ = true) :
    (if Lexeme.insideBehind false front ⟨kind, c :: text⟩ then Inside (front ++ c :: text) rest
      else Outside (front ++ c :: text) rest) ∧
      (kind = .string ∨ kind = .comment ∨ mode = .address →
        Covers (front ++ (c :: text ++ rest)) front (c :: text)) := by
  by_cases hskip : kind = .string ∨ kind = .comment
  · obtain ⟨hprotected, hc, hlast⟩ := protected_of_scans hscan hskip
    obtain ⟨hcovers, hout⟩ := h.skip (hprotected _) hc hlast
    have hbehind : Lexeme.insideBehind false front ⟨kind, c :: text⟩ = false := by
      rcases hskip with rfl | rfl <;> rfl
    rw [if_neg (by simp [hbehind])]
    exact ⟨hout, fun _ => hcovers⟩
  · obtain ⟨hstring, hcomment⟩ := not_or.mp hskip
    refine ⟨?_, fun hkind => by simp_all⟩
    by_cases henter : kind = .parenOpen ∧ endsInUrl front = true
    · obtain ⟨rfl, hurl⟩ := henter
      obtain rfl := hscan.kind_eq_parenOpen
      obtain rfl := List.length_eq_zero_iff.mp hscan.reach_eq_zero_of_parenOpen
      rw [if_pos (by simp [Lexeme.insideBehind, hurl])]
      exact h.enter hurl
    · have hbehind : Lexeme.insideBehind false front ⟨kind, c :: text⟩ = false := by
        simp only [Lexeme.insideBehind, Bool.false_or]
        split
        · next hparen => simpa [hparen] using henter
        · simp
      rw [if_neg (by simp [hbehind])]
      exact h.pass_scans hscan hmode hstring hcomment
        (fun hparen => by simpa [hparen] using henter) hstep

/-- The scan behind one token. -/
theorem Boundary.scan_step (h : Boundary mode inside front (c :: text ++ rest))
    (hscan : Scans c (text ++ rest) mode kind text.length)
    (hstep : Lexeme.keepsStep inside ⟨kind, c :: text⟩ = true) :
    (if Lexeme.insideBehind inside front ⟨kind, c :: text⟩ then Inside (front ++ c :: text) rest
      else Outside (front ++ c :: text) rest) ∧
      (kind = .string ∨ kind = .comment ∨ mode = .address →
        Covers (front ++ (c :: text ++ rest)) front (c :: text)) := by
  have hwhere := h.scan
  cases inside with
  | true =>
    rw [if_pos rfl] at hwhere
    exact hwhere.step hscan hstep
  | false =>
    rw [if_neg Bool.false_ne_true] at hwhere
    have hmode : mode ≠ .address := fun hmode => by cases h.address hmode
    exact hwhere.step hmode hscan hstep

/-- **One token**: the scan goes on in step, and skips what it has to. -/
theorem Boundary.step (h : Boundary mode inside front (c :: text ++ rest))
    (hscan : Scans c (text ++ rest) mode kind text.length)
    (hstep : Lexeme.keepsStep inside ⟨kind, c :: text⟩ = true) :
    Boundary (mode.after kind (c :: text) rest)
        (Lexeme.insideBehind inside front ⟨kind, c :: text⟩) (front ++ c :: text) rest ∧
      (kind = .string ∨ kind = .comment ∨ mode = .address →
        Covers (front ++ (c :: text ++ rest)) front (c :: text)) := by
  obtain ⟨hscan', hcovers⟩ := h.scan_step hscan hstep
  refine ⟨⟨hscan', fun haddress => ?_, fun hbehind => ?_, not_glued hscan⟩, hcovers⟩
  · rw [Mode.after] at haddress
    split at haddress
    · next hopens => simp [Lexeme.insideBehind, hopens.1, h.url hopens.2.1]
    · split at haddress <;> cases haddress
  · rw [Mode.after] at hbehind
    split at hbehind
    · cases hbehind
    · split at hbehind
      · next hurl =>
        rw [endsInUrl_append hurl.2, Bool.not_eq_true']
        by_contra hname
        have hlower := h.glued (by simpa using hname) c rfl
        have := hurl.2
        simp only [Text.eqIgnoringCase, List.map_cons, beq_iff_eq, List.cons.injEq] at this
        exact hlower this.1
      · cases hbehind

end Tokens

end Value.Length

/-- **A run of tokens** is gone through in step. -/
theorem Lexes.boundary {mode last : Mode} {cs rest : List Char} {ls : List Lexeme}
    (h : Lexes mode cs rest ls last) {inside : Bool} {front : List Char}
    (hfront : Value.Length.Boundary mode inside front (cs ++ rest))
    (hstep : Lexeme.inStep inside front ls = true) :
    ∃ inside', Value.Length.Boundary last inside' (front ++ cs) rest ∧
      ∀ ls', Lexeme.inStep inside front (ls ++ ls') = Lexeme.inStep inside' (front ++ cs) ls' := by
  induction h generalizing inside front with
  | nil => exact ⟨inside, by simpa using hfront, fun ls' => by simp⟩
  | @cons mode last kind c text cs rest ls hscan htail ih =>
    obtain ⟨hfirst, hothers⟩ := Bool.and_eq_true_iff.mp hstep
    rw [List.append_assoc] at hfront
    obtain ⟨hnext, -⟩ := hfront.step hscan hfirst
    obtain ⟨inside', hlast, hall⟩ := ih hnext hothers
    rw [List.append_assoc] at hlast
    refine ⟨inside', hlast, fun ls' => ?_⟩
    rw [List.cons_append, Lexeme.inStep, hfirst, Bool.true_and, hall, List.append_assoc]

theorem Lexeme.inStep_of_append {inside : Bool} {front : List Char} {ls ls' : List Lexeme}
    (h : inStep inside front (ls ++ ls') = true) : inStep inside front ls = true := by
  induction ls generalizing inside front with
  | nil => rfl
  | cons l ls ih =>
    obtain ⟨hl, hls⟩ := Bool.and_eq_true_iff.mp h
    exact Bool.and_eq_true_iff.mpr ⟨hl, ih hls⟩

/-- **A token up to which the scan is in step** is skipped, if it is a string, a comment or an
address. -/
theorem Lexes.covers {before : List Lexeme} {middle : Mode} {front text rest : List Char}
    {kind : Token.Kind} {c : Char} (h : Lexes .plain front (c :: text ++ rest) before middle)
    (hscan : Scans c (text ++ rest) middle kind text.length)
    (hkind : kind = .string ∨ kind = .comment ∨ middle = .address)
    (hstep : Lexeme.inStep false [] (before ++ [⟨kind, c :: text⟩]) = true) :
    Value.Length.Covers (front ++ (c :: text ++ rest)) front (c :: text) := by
  obtain ⟨inside, hboundary, hall⟩ :=
    h.boundary (Value.Length.boundary_nil _) (Lexeme.inStep_of_append hstep)
  rw [hall, List.nil_append] at hstep
  exact (hboundary.step hscan (Bool.and_eq_true_iff.mp hstep).1).2 hkind

/-! ### Declarations -/

/-- What stands in front of the mark of a value has no part in it, if it ends as no mark does. -/
theorem splitImportant_of_append (front behind : List Char) {c : Char}
    (h : ∀ mark, (splitImportant (front ++ c :: behind)).2 = some mark → c ∉ mark) :
    ∃ rest, (splitImportant (front ++ c :: behind)).1 = front ++ c :: rest ∧
      behind = rest ++ (splitImportant (front ++ c :: behind)).2.getD [] := by
  have hcut := splitImportant_append (front ++ c :: behind)
  have hmark : c ∉ (splitImportant (front ++ c :: behind)).2.getD [] := by
    cases hsome : (splitImportant (front ++ c :: behind)).2 with
    | none => simp
    | some mark => exact h mark hsome
  rcases List.append_eq_append_iff.mp hcut with ⟨x, hfront, hx⟩ | ⟨x, hkept, hx⟩
  · exact absurd (by simp [hx]) hmark
  · cases x with
    | nil =>
      rw [List.nil_append] at hx
      exact absurd (by simp [← hx]) hmark
    | cons d x =>
      obtain ⟨rfl, hbehind⟩ := List.cons.inj hx
      exact ⟨x, hkept, hbehind⟩

/-- No mark has a character that closes a stretch. -/
theorem IsMark.not_closes {mark : List Char} (h : IsMark mark) {c : Char} (hc : c ∈ mark) :
    Value.Length.closes c = false := by
  obtain ⟨hpunct, hdouble, hsingle, -, hslash, -⟩ := h.plain c hc
  have hclose : c ≠ ')' := by
    rintro rfl
    cases hpunct
  simp [Value.Length.closes, Value.isQuote, hdouble, hsingle, hslash, hclose]

/-- What stands in front of a character that closes a stretch is no part of a mark. -/
theorem exists_of_closes (front behind : List Char) {c : Char}
    (hc : Value.Length.closes c = true) :
    ∃ rest, (splitImportant (front ++ c :: behind)).1 = front ++ c :: rest := by
  obtain ⟨rest, hrest, -⟩ := splitImportant_of_append front behind (c := c)
    fun mark hmark hmem => by
      rw [(isMark_of_splitImportant (Prod.ext rfl hmark)).2.not_closes hmem] at hc
      cases hc
  exact ⟨rest, hrest⟩

/-- **Behind a token that is skipped** the value goes on in front of its mark as it went on in the
source, as far as lexical analysis looks. -/
theorem exists_rest_of_scans (front : List Char) {text behind ahead : List Char} {c : Char}
    {mode : Mode} {kind : Token.Kind}
    (hscan : Scans c (text ++ (behind ++ ahead)) mode kind text.length)
    (hkind : kind = .string ∨ kind = .comment ∨ mode = .address) (hahead : Token.Stops ahead) :
    ∃ rest, (splitImportant (front ++ (c :: text ++ behind))).1 = front ++ (c :: text ++ rest) ∧
      Scans c (text ++ rest) mode kind text.length ∧
      SameStart (c :: text ++ (behind ++ ahead)) (c :: text ++ rest) := by
  by_cases hmode : mode = .address
  · subst hmode
    have hclose : (behind ++ ahead).head? = some ')' := hscan.follows
    obtain ⟨behind, rfl⟩ : ∃ behind', behind = ')' :: behind' := by
      cases behind with
      | nil => exact absurd hclose hahead.head_ne_paren
      | cons d behind => exact ⟨behind, congrArg (· :: behind) (Option.some.inj hclose)⟩
    obtain ⟨rest, hrest⟩ := exists_of_closes (front ++ c :: text) behind (c := ')') rfl
    refine ⟨')' :: rest, by simpa using hrest, hscan.change rfl, ?_⟩
    exact SameStart.of_append (by simp) (by simp) (by simp)
  · have hskip : kind = .string ∨ kind = .comment := by simpa [hmode] using hkind
    obtain ⟨init, d, hd⟩ := (List.eq_nil_or_concat' (c :: text)).resolve_left (by simp)
    have hcloses := (Value.Length.protected_of_scans hscan hskip).2.2 d (by simp [hd])
    obtain ⟨rest, hrest⟩ := exists_of_closes (front ++ init) behind hcloses
    refine ⟨rest, ?_, hscan.change ?_, ?_⟩
    · rw [hd]
      simpa using hrest
    · rcases hskip with rfl | rfl <;> cases mode <;> first | contradiction | trivial
    · refine ⟨rfl, fun hslash => ?_⟩
      obtain rfl : c = '/' := by simpa using hslash
      rcases hskip with rfl | rfl
      · cases (Value.Length.string_of_scans hscan).1
      · obtain ⟨inner, hinner, -⟩ := hscan.exists_inner
        obtain rfl := (List.cons.inj hinner).2
        simp

/-- **A string, a comment or an address of a value** is skipped when the value is scanned, if the
scan is in step up to it. -/
theorem Node.ValueStands.covers {source : Source} {n : Node} {front value behind : List Token}
    (h : n.ValueStands source front value behind) {before after : List Token} {u : Token}
    (hvalue : value = before ++ u :: after)
    (hkind : u.kind = .string ∨ u.kind = .comment ∨ u.IsAddress (front ++ before))
    (hstep : Lexeme.inStep false [] ((before ++ [u]).map Token.lexeme) = true) :
    ∃ rest, (splitImportant (Token.concat value).toList).1 =
        (Token.concat before).toList ++ (u.text.toList ++ rest) ∧
      Value.Length.Covers (splitImportant (Token.concat value).toList).1
        (Token.concat before).toList u.text.toList := by
  subst hvalue
  obtain ⟨last, hlexes⟩ := h.lexes
  rw [List.map_append, List.map_cons] at hlexes
  obtain ⟨cs₁, cs₂, middle, hcut, hbefore, hback⟩ := hlexes.exists_of_append
  obtain rfl : cs₁ = (Token.concat before).toList := by
    rw [Token.toList_concat]
    exact hbefore.concat_eq.symm
  have hopens := h.opens
  rw [Token.concat_append, String.toList_append, hcut, List.append_assoc] at hopens
  -- The lexical grammar is inside an address if the token is one.
  have hmiddle : u.IsAddress (front ++ before) → middle = .address := by
    rintro ⟨hword, hurl⟩
    by_contra hmode
    rw [List.map_append] at hurl
    exact hmode ((hopens.append hbefore).last_eq_address_iff.mpr
      ⟨hurl, hback.startsAddress hword hmode⟩)
  rw [List.map_append, List.map_singleton] at hstep
  replace hkind := hkind.imp_right (Or.imp_right hmiddle)
  have hukind : u.kind = u.lexeme.kind := rfl
  have hutext : u.text.toList = u.lexeme.text := rfl
  rw [hukind] at hkind
  rw [hcut, hutext]
  generalize u.lexeme = l at hback hstep hkind
  cases hback with
  | @cons _ _ kind c text cs _ _ hscan htail =>
    obtain ⟨rest, hrest, hscan', hsame⟩ :=
      exists_rest_of_scans (Token.concat before).toList hscan hkind h.stops
    rw [hrest]
    rw [List.append_assoc] at hbefore
    exact ⟨rest, rfl, (hbefore.change_of_sameStart hsame).covers hscan' hkind hstep⟩

/-- **Strings, comments and addresses stay as they are** when the lengths of a value are converted,
as far as the scan for lengths is in step with the tokens.  The value of a declaration and its mark
are cut from some tokens of the source; converting it replaces the ranges of the lengths that a scan
finds; and none of these ranges meets a string, a comment or an address up to which the scan is in
step. -/
theorem pxToRem_keeps_tokens {source : Source} {t : Tree Node} (h : parse source false = .ok t)
    {n : Node} (hn : n ∈ t.preorder) {property value : String} {important : Bool}
    (hcontent : n.content = .declaration property value important) {root : Nat} (hroot : root ≠ 0) :
    ∃ span front tokens behind mark, n.span = some span ∧
      tokens = Statement.valueTokens
        (Statement.runAt (tokenize source false).tokens span.start) ∧
      (tokenize source false).tokens = front ++ (tokens ++ behind) ∧
      n.range? .value = some ((Token.concat front).utf8ByteSize,
        (Token.concat front).utf8ByteSize + value.utf8ByteSize) ∧
      Token.concat tokens = value ++ mark ∧
      Source.patched? { text := value }
          (Value.Length.patches root (Value.Length.scan (spell value.toList) 0)) =
        some (Value.pxToRem root value) ∧
      ∀ before u after, tokens = before ++ u :: after →
        u.kind = .string ∨ u.kind = .comment ∨ u.IsAddress (front ++ before) →
        Lexeme.inStep false [] ((before ++ [u]).map Token.lexeme) = true →
        (∃ rest, value = Token.concat before ++ u.text ++ rest) ∧
          ∀ found ∈ Value.Length.lengths (Value.Length.scan (spell value.toList) 0),
            found.stop ≤ (Token.concat before).utf8ByteSize ∨
              (Token.concat before ++ u.text).utf8ByteSize ≤ found.start := by
  have hdeclaration : n.content.isDeclaration = true := by
    rw [hcontent]
    rfl
  obtain ⟨span, front, behind, hspan, hstands⟩ := valueStands_of_parse h hn hdeclaration
  generalize htokens : Statement.valueTokens _ = tokens at hstands
  obtain ⟨property', hcontent'⟩ := hstands.content
  obtain rfl : value = String.ofList (splitImportant (Token.concat tokens).toList).1 := by
    rw [hcontent] at hcontent'
    injection hcontent'
  refine ⟨span, front, tokens, behind,
    String.ofList ((splitImportant (Token.concat tokens).toList).2.getD []), hspan, htokens.symm,
    hstands.tokens, hstands.range, ?_, Value.patched_scan hroot _,
    fun before u after hcut hkind hstep => ?_⟩
  · rw [← String.ofList_append, splitImportant_append, String.ofList_toList]
  · obtain ⟨rest, hrest, start, stop, hskipped, hstart, hstop⟩ := hstands.covers hcut hkind hstep
    rw [String.toList_ofList]
    refine ⟨⟨String.ofList rest, ?_⟩, fun found hfound => ?_⟩
    · rw [hrest]
      simp [String.append_assoc]
    · rw [← String.toList_append, String.utf8Len_toList] at hstop
      rw [String.utf8Len_toList] at hstart
      exact (Value.Length.Found.disjoint_of_skipped hfound hskipped).imp
        (fun hle => hle.trans hstart) (fun hle => hstop.trans hle)

/-- An address with an escaped parenthesis and a string, between two lengths. -/
def escapedSheet : Source where
  text := "a:1px url(\\)2px)'3px'4px"

theorem pxToRem_keeps_tokens_escapedSheet :
    let value := "1px url(\\)2px)'3px'4px"
    ∃ t n, parse escapedSheet false = .ok t ∧ n ∈ t.preorder ∧
      n.content = .declaration "a" value false ∧
      Value.pxToRem 16 value = "0.0625rem url(\\)2px)'3px'0.25rem" ∧
      ∀ found ∈ Value.Length.lengths (Value.Length.scan (spell value.toList) 0),
        (found.stop ≤ 8 ∨ 13 ≤ found.start) ∧ (found.stop ≤ 14 ∨ 19 ≤ found.start) := by
  intro value
  let all := (tokenize escapedSheet false).tokens
  have hrun : (parse escapedSheet false).toOption.any (fun t => t.preorder.any fun n =>
      n.content == .declaration "a" value false && n.span.all fun span =>
        Statement.valueTokens (Statement.runAt all span.start) == all.drop 2) = true := by
    decide +kernel
  obtain ⟨t, ht, hany⟩ := exists_ok_of_any hrun
  obtain ⟨n, hn, hboth⟩ := List.any_eq_true.mp hany
  obtain ⟨hcontent, hall⟩ := Bool.and_eq_true_iff.mp hboth
  rw [beq_iff_eq] at hcontent
  obtain ⟨span, front, tokens, behind, mark, hspan, htokens, -, -, -, -, hkeeps⟩ :=
    pxToRem_keeps_tokens ht hn hcontent (show 16 ≠ 0 by decide)
  rw [hspan, Option.all_some, ← htokens, beq_iff_eq] at hall
  subst hall
  let address : Token := ⟨.word, "\\)2px", ⟨0, ⟨10, 1, 11⟩, ⟨15, 1, 16⟩⟩⟩
  let string : Token := ⟨.string, "'3px'", ⟨0, ⟨16, 1, 17⟩, ⟨21, 1, 22⟩⟩⟩
  have hurl : Lexeme.opensAddress (((all.drop 2).take 4).map Token.lexeme) = true := by
    decide +kernel
  have haddress : address.IsAddress (front ++ (all.drop 2).take 4) := by
    refine ⟨rfl, ?_⟩
    rw [List.map_append, Lexeme.opensAddress_append _ (by decide +kernel)]
    exact hurl
  obtain ⟨-, hfirst⟩ := hkeeps ((all.drop 2).take 4) address (all.drop 7) (by decide +kernel)
    (.inr (.inr haddress)) (by decide +kernel)
  obtain ⟨-, hsecond⟩ := hkeeps ((all.drop 2).take 6) string (all.drop 9) (by decide +kernel)
    (.inl rfl) (by decide +kernel)
  rw [show (Token.concat ((all.drop 2).take 4)).utf8ByteSize = 8 by decide +kernel,
    show (Token.concat ((all.drop 2).take 4) ++ address.text).utf8ByteSize = 13 by decide +kernel]
    at hfirst
  rw [show (Token.concat ((all.drop 2).take 6)).utf8ByteSize = 14 by decide +kernel,
    show (Token.concat ((all.drop 2).take 6) ++ string.text).utf8ByteSize = 19 by decide +kernel]
    at hsecond
  exact ⟨t, n, ht, hn, hcontent, by decide +kernel, fun found hfound =>
    ⟨hfirst found hfound, hsecond found hfound⟩⟩

/-- **A string is changed** if a word in front of it has an escaped quote: the scan takes that quote
for the start of a string, and the string for what stands behind one. -/
theorem exists_string_converted :
    ∃ t n string, parse { text := "a:\\\"\" 16px \"" } false = .ok t ∧ n ∈ t.preorder ∧
      n.content = .declaration "a" "\\\"\" 16px \"" false ∧
      string ∈ (tokenize { text := "a:\\\"\" 16px \"" } false).tokens ∧ string.kind = .string ∧
      string.text = "\" 16px \"" ∧ string.start.offset = 4 ∧
      n.range? .value = some (2, 12) ∧
      Value.pxToRem 16 "\\\"\" 16px \"" = "\\\"\" 1rem \"" := by
  have hrun : (parse { text := "a:\\\"\" 16px \"" } false).toOption.any (fun t =>
      t.preorder.any fun n => n.content == .declaration "a" "\\\"\" 16px \"" false &&
        n.range? .value == some (2, 12)) = true := by
    decide +kernel
  obtain ⟨t, ht, hany⟩ := exists_ok_of_any hrun
  obtain ⟨n, hn, hboth⟩ := List.any_eq_true.mp hany
  obtain ⟨hcontent, hrange⟩ := Bool.and_eq_true_iff.mp hboth
  refine ⟨t, n, ⟨.string, "\" 16px \"", ⟨0, ⟨4, 1, 5⟩, ⟨12, 1, 13⟩⟩⟩, ht, hn,
    beq_iff_eq.mp hcontent, by decide +kernel, rfl, rfl, rfl, beq_iff_eq.mp hrange,
    by decide +kernel⟩

end LosslessCss
