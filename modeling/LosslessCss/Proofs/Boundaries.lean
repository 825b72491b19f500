import LosslessCss.Proofs.Recovery
import LosslessCss.Proofs.Accepting
import LosslessCss.Proofs.Deriving

/-!
# Where tokens meet

The tokens of a source are cut where they are for a reason that can be seen from the tokens alone.
Outside an address a token needs nothing of the text around it: `Token.Follows` holds of the end of
the text, so the token is read again when it stands alone.  Two tokens in a row are two because the
first one had to end: blank space ends at what is not blank, and what ends a word starts another one
only if it is `!` or `#`.

An address is the exception to both.  It has no meaning without the `url(` in front of it, and it
ends at a parenthesis and at nothing else.

## Main Definitions

* `Lexeme.Meets` : two tokens that can stand next to each other
* `Token.IsAddress` : a word directly behind `url(`

## Main Statements

* `Lexes.last_eq_address_iff` : an address starts exactly behind `url(`
* `Token.Scans.alone` : any other token is read again when it stands alone
* `Lexes.isChain_meets`, `Lexes.closes_address` : the two ways in which tokens meet
* `tokenize_boundaries`
-/

namespace LosslessCss

open Token (Mode Scans)

namespace Token

/-! ### One token -/

/-- Everything but an address may stand at the end of a text. -/
theorem follows_nil {mode : Mode} (hmode : mode ≠ .address) (kind : Kind) (text : List Char) :
    Follows mode kind text [] := by
  cases kind with
  | space => simp [follows_space hmode]
  | word => simp [follows_word hmode, WordEnds]
  | atWord => simp [follows_atWord hmode]
  | _ => cases mode <;> first | contradiction | trivial

/-- **A token that is no address is read again when it stands alone.** -/
theorem Scans.alone {c : Char} {text ahead : List Char} {mode : Mode} {kind : Kind}
    (h : Scans c (text ++ ahead) mode kind text.length) (hmode : mode ≠ .address) :
    Scans c text .plain kind text.length := by
  have halone := h.change (follows_nil hmode kind (c :: text))
  rw [List.append_nil] at halone
  exact halone.of_mode hmode (by simp)

/-- What ends a word and starts a word is an exclamation mark or a number sign. -/
theorem StartsWord.eq_mark {c : Char} {cs : List Char} (h : StartsWord c cs)
    (hends : WordEnds (c :: cs)) : c = '!' ∨ c = '#' := by
  obtain ⟨hblank, hkind, hsingle, hdouble, hat, hcomment⟩ := h
  rcases hends c rfl with hstop | hstop
  · simp only [endsWord, hblank, hsingle, hdouble, hat, Bool.false_or, Bool.or_eq_true, beq_iff_eq,
      or_false, or_assoc] at hstop
    rcases hstop with hmark | hnumber | hpunct
    · exact .inl hmark
    · exact .inr hnumber
    · rcases hpunct with rfl | rfl | rfl | rfl | rfl | rfl | rfl | rfl | rfl | rfl | rfl <;>
        cases hkind
  · exact absurd hstop hcomment

/-- A word that is no address starts like one. -/
theorem StartsWord.startsAddress {c : Char} {cs : List Char} (h : StartsWord c cs) :
    startsAddress c = true := by
  obtain ⟨hblank, hkind, hsingle, hdouble, -, -⟩ := h
  have hclose : c ≠ ')' := by
    rintro rfl
    cases hkind
  simp [Token.startsAddress, *]

/-- Outside an address a closing parenthesis is a token. -/
theorem Scans.kind_eq_parenClose {cs : List Char} {mode : Mode} {kind : Kind} {n : Nat}
    (h : Scans ')' cs mode kind n) (hmode : mode ≠ .address) : kind = .parenClose :=
  (h.unique (.punctuation hmode rfl)).1

/-- No address starts behind a word. -/
theorem Mode.after_ne_address_of_word (mode : Mode) (text rest : List Char) :
    mode.after .word text rest ≠ .address := by
  rw [Mode.after, if_neg (by simp)]
  split <;> simp

/-- In an address a token goes as far as the address. -/
theorem Scans.scanAddress_eq {c : Char} {cs : List Char} {kind : Kind} {n : Nat}
    (h : Scans c cs .address kind n) : scanAddress c cs = some n := by
  generalize hmode : Mode.address = mode at h
  cases h with
  | address hreach => exact hreach
  | _ => exact absurd hmode.symm ‹_›

/-! ### Addresses -/

/-- The parenthesis that closes an address is the first one that is not escaped. -/
theorem dangles_of_addressTail {front back ahead : List Char}
    (h : addressTail (front ++ ')' :: back ++ ahead) = some (front ++ ')' :: back).length) :
    dangles front = true := by
  fun_induction dangles front with
  | case1 => simp [addressTail] at h
  | case2 => rfl
  | case3 c cs ih =>
    refine ih ?_
    simpa [addressTail_escape] using h
  | case4 c cs hne₁ hne₂ ih =>
    have hc : c ≠ '\\' := ne_backslash hne₁ hne₂
    rw [List.append_assoc, List.cons_append, addressTail_cons_of_ne _ hc] at h
    split at h
    · simp at h
    · refine ih ?_
      simpa using h

/-- An address is measured from its first character if that is no parenthesis. -/
theorem addressTail_cons {c : Char} (hc : c ≠ ')') (cs : List Char) :
    addressTail (c :: cs) = (scanAddress c cs).map (· + 1) := by
  by_cases hescape : c = '\\'
  · subst hescape
    cases cs with
    | nil => rfl
    | cons d ds =>
      rw [addressTail_escape, scanAddress, Option.map_map]
      rfl
  · rw [addressTail_cons_of_ne _ hescape, if_neg hc, scanAddress_of_ne hescape]

end Token

/-! ### Stretches -/

/-- **Two tokens that can stand next to each other.**  Blank space takes all the blank space there
is, and a word goes on until something ends it. -/
def Lexeme.Meets (l l' : Lexeme) : Prop :=
  ¬(l.kind = .space ∧ l'.kind = .space) ∧
    (l.kind = .word → l'.kind = .word → l'.text.head? = some '!' ∨ l'.text.head? = some '#')

/-- **A word directly behind `url(`.** -/
def Token.IsAddress (t : Token) (before : List Token) : Prop :=
  t.kind = .word ∧ Lexeme.opensAddress (before.map Token.lexeme) = true

namespace Lexes

variable {mode last : Mode} {cs rest : List Char} {l l' : Lexeme} {ls : List Lexeme}

/-- Two tokens in a row. -/
theorem meets (h : Lexes mode cs rest (l :: l' :: ls) last) : l.Meets l' := by
  cases h with
  | @cons _ _ kind c text ahead _ _ hscan htail =>
    generalize hahead : ahead = cs at htail
    cases htail with
    | @cons _ _ kind' d text' more _ _ hscan' _ =>
      subst hahead
      have hfollows := hscan.follows
      constructor
      · rintro ⟨rfl, rfl⟩
        have hmode : mode ≠ .address := by
          rintro rfl
          cases hscan.kind_eq_word
        have hblank : Token.isBlank d = true := hscan'.spells d List.mem_cons_self
        rw [Token.follows_space hmode] at hfollows
        exact absurd hblank (by simpa using hfollows)
      · rintro rfl rfl
        have hmode' := mode.after_ne_address_of_word (c :: text) (d :: text' ++ more ++ rest)
        by_cases hmode : mode = .address
        · -- What stands behind an address is a parenthesis, and no word.
          subst hmode
          obtain rfl : d = ')' := by simpa [Token.Follows] using hfollows
          cases hscan'.kind_eq_parenClose hmode'
        · have hends := ((Token.follows_word hmode).mp hfollows).1
          rw [List.append_assoc, List.cons_append] at hends
          simpa using (hscan'.word_spec hmode').1.eq_mark hends

/-- **Any two tokens in a row can stand next to each other.** -/
theorem isChain_meets (h : Lexes mode cs rest ls last) : ls.IsChain Lexeme.Meets := by
  induction h with
  | nil => exact .nil
  | @cons _ _ _ _ _ _ _ ls hscan htail ih =>
    cases ls with
    | nil => exact .singleton _
    | cons => exact .cons_cons (meets (.cons hscan htail)) ih

/-- **An address goes on to the first parenthesis that is not escaped**, which is a token. -/
theorem closes_address (h : Lexes .address cs [] (l :: ls) last)
    (hstart : cs.head?.any Token.startsAddress = true) :
    (∀ front back, l.text = front ++ ')' :: back → Token.dangles front = true) ∧
      ∃ close ls', ls = close :: ls' ∧ close.kind = .parenClose := by
  cases h with
  | @cons _ _ kind c text ahead _ _ hscan htail =>
    obtain rfl := hscan.kind_eq_word
    have hclose : ahead.head? = some ')' := by simpa [Token.Follows] using hscan.follows
    constructor
    · intro front back htext
      have hc : c ≠ ')' := by
        rintro rfl
        simp [Token.startsAddress] at hstart
      have hreach := Token.addressTail_cons hc (text ++ (ahead ++ []))
      rw [hscan.scanAddress_eq, Option.map_some] at hreach
      rw [← List.cons_append, show c :: text = _ from htext] at hreach
      exact Token.dangles_of_addressTail (hreach.trans (congrArg (some ·.length) htext))
    · obtain ⟨cs, rfl⟩ := List.head?_eq_some_iff.mp hclose
      have hmode' := Mode.after_ne_address_of_word .address (c :: text) (')' :: cs ++ [])
      generalize hahead : ')' :: cs = ahead at htail
      cases htail with
      | nil => cases hahead
      | cons hscan' _ =>
        obtain ⟨rfl, -⟩ := List.cons.inj hahead
        exact ⟨_, _, rfl, hscan'.kind_eq_parenClose hmode'⟩

/-- **Outside an address a token is read again when it stands alone.** -/
theorem alone (h : Lexes mode cs rest (l :: ls) last) (hmode : mode ≠ .address) :
    ∃ last', Lexes .plain l.text [] [l] last' := by
  cases h with
  | @cons _ _ kind c text _ _ _ hscan _ =>
    have hscan' : Scans c (text ++ ([] ++ [])) .plain kind text.length := by
      simpa using hscan.alone hmode
    have hsingle := Lexes.cons hscan' (.nil _ _)
    rw [List.append_nil] at hsingle
    exact ⟨_, hsingle⟩

/-- In an address a stretch starts with a word. -/
theorem kind_eq_word (h : Lexes .address cs rest (l :: ls) last) : l.kind = .word := by
  cases h with
  | cons hscan _ => exact hscan.kind_eq_word

/-- A word behind `url(` is an address. -/
theorem startsAddress (h : Lexes mode cs rest (l :: ls) last) (hword : l.kind = .word)
    (hmode : mode ≠ .address) : (cs ++ rest).head?.any Token.startsAddress = true := by
  cases h with
  | cons hscan _ =>
    obtain rfl := hword
    exact (hscan.word_spec hmode).1.startsAddress

/-- **No address stands at the end of a statement**, nor does anything but a parenthesis behind
it. -/
theorem ne_address (h : Lexes mode cs rest (l :: ls) last) (hrest : Token.Stops rest)
    (hls : ')' ∉ Lexeme.concat ls) : mode ≠ .address := by
  rintro rfl
  cases h with
  | cons hscan htail =>
    have hclose : (_ ++ rest).head? = some ')' := hscan.follows
    rw [← htail.concat_eq] at hclose
    cases hbehind : Lexeme.concat ls with
    | nil =>
      rw [hbehind] at hclose
      exact hrest.head_ne_paren hclose
    | cons d ds =>
      rw [hbehind] at hclose hls
      obtain rfl : d = ')' := by simpa using hclose
      exact hls List.mem_cons_self

end Lexes

/-- **Token boundaries follow the lexical grammar.**  Blank space never stands next to blank space,
and a word behind a word starts with `!` or `#`.  A token that is no address is read as itself when
it stands alone.  An address has no unescaped `)` in it, and a `)` behind it. -/
theorem tokenize_boundaries (source : Source) (h : (tokenize source false).failure = none) :
    (tokenize source false).tokens.IsChain (fun t u => t.lexeme.Meets u.lexeme) ∧
      ∀ before t after, (tokenize source false).tokens = before ++ t :: after →
        (¬t.IsAddress before → ∀ lenient, ∃ again : Token,
            tokenize { text := t.text } lenient = ⟨[again], none⟩ ∧
              again.kind = t.kind ∧ again.text = t.text) ∧
          (t.IsAddress before →
            (∀ front back, t.text.toList = front ++ ')' :: back → Token.dangles front = true) ∧
              ∃ close after', after = close :: after' ∧ close.kind = .parenClose) := by
  obtain ⟨last, hlexes⟩ := (Reader.ofSource_fresh source false).lexes_of_drain rfl h
  refine ⟨(List.isChain_map _).mp hlexes.isChain_meets, fun before t after hsplit => ?_⟩
  replace hlexes : Lexes .plain source.text.toList []
      (before.map Token.lexeme ++ t.lexeme :: after.map Token.lexeme) last := by
    rw [← List.map_cons, ← List.map_append, ← hsplit]
    exact hlexes
  obtain ⟨cs₁, cs₂, middle, -, hfront, hback⟩ := hlexes.exists_of_append
  have hmiddle := hfront.last_eq_address_iff
  constructor
  · intro hno lenient
    have hmode : middle ≠ .address := by
      rintro rfl
      exact hno ⟨hback.kind_eq_word, (hmiddle.mp rfl).1⟩
    obtain ⟨last', halone⟩ := hback.alone hmode
    have hfresh := Reader.ofSource_fresh { text := t.text } false
    obtain ⟨hfailure, htokens⟩ := hfresh.drain_of_lexes halone
    obtain ⟨again, hagain, hlexeme⟩ := List.map_eq_singleton_iff.mp htokens
    have hstrict : tokenize { text := t.text } false = ⟨[again], none⟩ := by
      rw [← hagain, ← hfailure]
      rfl
    have hkind : again.kind = t.kind := congrArg Lexeme.kind hlexeme
    have htext : again.text = t.text := String.toList_inj.mp (congrArg Lexeme.text hlexeme)
    refine ⟨again, ?_, hkind, htext⟩
    cases lenient with
    | false => exact hstrict
    | true => exact (hfresh.drain_lenient rfl hfailure).trans hstrict
  · rintro ⟨hword, hopens⟩
    obtain rfl : middle = .address := by
      by_contra hmode
      exact hmode (hmiddle.mpr ⟨hopens, hback.startsAddress hword hmode⟩)
    have hstart := (hmiddle.mp rfl).2
    rw [List.append_nil] at hstart
    obtain ⟨hescaped, close, ls', hclose, hkind⟩ := hback.closes_address hstart
    obtain ⟨close, after', rfl, rfl, -⟩ := List.map_eq_cons_iff.mp hclose
    exact ⟨hescaped, close, after', rfl, hkind⟩

/-- Two words in a row, a comment, and an address that ends in blank space. -/
def fencedSheet : Source where
  text := "a#b /**/url(\\)u ):c"

theorem tokenize_boundaries_fencedSheet :
    (tokenize fencedSheet false).failure = none ∧
      (tokenize fencedSheet false).tokens.IsChain (fun t u => t.lexeme.Meets u.lexeme) ∧
      ∃ before address close after,
        (tokenize fencedSheet false).tokens = before ++ address :: close :: after ∧
          address.IsAddress before ∧ address.text = "\\)u " ∧ close.kind = .parenClose := by
  have hfailure : (tokenize fencedSheet false).failure = none := by decide +kernel
  obtain ⟨hchain, hsplits⟩ := tokenize_boundaries fencedSheet hfailure
  let address : Token := ⟨.word, "\\)u ", ⟨0, ⟨12, 1, 13⟩, ⟨16, 1, 17⟩⟩⟩
  have hsplit : (tokenize fencedSheet false).tokens = (tokenize fencedSheet false).tokens.take 6 ++
      address :: (tokenize fencedSheet false).tokens.drop 7 := by
    decide +kernel
  have haddress : address.IsAddress ((tokenize fencedSheet false).tokens.take 6) :=
    ⟨rfl, by decide +kernel⟩
  obtain ⟨-, close, after, hafter, hclose⟩ := (hsplits _ _ _ hsplit).2 haddress
  rw [hafter] at hsplit
  exact ⟨hfailure, hchain, _, address, close, after, hsplit, haddress, rfl, hclose⟩

end LosslessCss
