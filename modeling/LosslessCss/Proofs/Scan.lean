import LosslessCss.Token.Lexeme
import Mathlib

/-!
# One step of lexical analysis

`Token.scan` decides by a chain of tests which kind of token starts at a place.  Facts about the
step are easier to state and to use when its outcomes stand side by side: `Token.Scans` has one
constructor for each way in which a token can start, and `Token.scan_eq_ok_iff` says that these are
all of them.

## Main Definitions

* `Token.StartsWord` : what is left over by all other tests starts a word
* `Token.Scans` : the outcomes of a step
* `Token.Kind.Spells` : what the text of a token says about its kind, as far as the parser uses it

## Main Statements

* `Token.scan_eq_ok_iff` : the outcomes are those of `Token.scan`
* `Token.Scans.le_length` : a token never reaches behind the text ahead
* `Token.Scans.spells` : its text fits its kind
-/

namespace LosslessCss

namespace Token

/-! ### The outcomes -/

/-- No other token starts here, so a word does. -/
def StartsWord (c : Char) (cs : List Char) : Prop :=
  isBlank c = false ∧ punctuation? c = none ∧ c ≠ '\'' ∧ c ≠ '"' ∧ c ≠ '@' ∧
    ¬(c = '/' ∧ cs.head? = some '*')

/-- **The outcomes of a step** in front of `c :: cs`: the kind of the token, and the number of
characters of `cs` that belong to it. -/
inductive Scans (c : Char) (cs : List Char) : Mode → Kind → Nat → Prop
  | address {n : Nat} (hreach : scanAddress c cs = some n) : Scans c cs .address .word n
  | space {mode : Mode} (hmode : mode ≠ .address) (hblank : isBlank c = true) :
      Scans c cs mode .space (cs.takeWhile isBlank).length
  | punctuation {mode : Mode} {kind : Kind} (hmode : mode ≠ .address)
      (hkind : punctuation? c = some kind) : Scans c cs mode kind 0
  | string {mode : Mode} {n : Nat} (hmode : mode ≠ .address) (hquote : c = '\'' ∨ c = '"')
      (hreach : stringTail c cs = some n) : Scans c cs mode .string n
  | atWord {mode : Mode} (hmode : mode ≠ .address) (hat : c = '@') :
      Scans c cs mode .atWord (atWordTail cs)
  | comment {mode : Mode} {rest : List Char} {n : Nat} (hmode : mode ≠ .address) (hslash : c = '/')
      (hstar : cs = '*' :: rest) (hreach : commentTail rest = some n) :
      Scans c cs mode .comment (n + 1)
  | word {mode : Mode} (hmode : mode ≠ .address) (hstart : StartsWord c cs) :
      Scans c cs mode .word (scanWord c cs)

/-- Punctuation is not blank. -/
theorem isBlank_of_punctuation? {c : Char} {kind : Kind} (h : punctuation? c = some kind) :
    isBlank c = false := by
  unfold punctuation? at h
  split at h <;> first | rfl | simp at h

/-- Punctuation is none of the tokens that can be longer than one character. -/
theorem kind_of_punctuation? {c : Char} {kind : Kind} (h : punctuation? c = some kind) :
    kind ≠ .word ∧ kind ≠ .string ∧ kind ≠ .atWord ∧ kind.isTrivia = false := by
  unfold punctuation? at h
  split at h <;> cases h <;> simp [Kind.isTrivia]

/-- **The outcomes are those of the step.** -/
theorem scan_eq_ok_iff {mode : Mode} {c : Char} {cs : List Char} {kind : Kind} {n : Nat} :
    scan mode c cs = .ok (kind, n) ↔ Scans c cs mode kind n := by
  constructor
  · intro h
    unfold scan at h
    split at h
    · next hmode =>
      subst hmode
      split at h
      · next m hreach =>
        cases h
        exact .address hreach
      · cases h
    · next hmode =>
      split at h
      · next hblank =>
        cases h
        exact .space hmode hblank
      · next hblank =>
        split at h
        · next k hkind =>
          cases h
          exact .punctuation hmode hkind
        · next hkind =>
          split at h
          · next hquote =>
            split at h
            · next m hreach =>
              cases h
              exact .string hmode hquote hreach
            · cases h
          · next hquote =>
            split at h
            · next hat =>
              cases h
              exact .atWord hmode hat
            · next hat =>
              split at h
              · next hcomment =>
                obtain ⟨rest, hstar⟩ := List.head?_eq_some_iff.mp hcomment.2
                rw [hstar, List.tail_cons] at h
                split at h
                · next m hreach =>
                  cases h
                  exact .comment hmode hcomment.1 hstar hreach
                · cases h
              · next hcomment =>
                cases h
                obtain ⟨hsingle, hdouble⟩ := not_or.mp hquote
                exact .word hmode
                  ⟨by simpa using hblank, hkind, hsingle, hdouble, hat, hcomment⟩
  · intro h
    cases h with
    | address hreach => simp [scan, hreach]
    | space hmode hblank => simp [scan, hmode, hblank]
    | punctuation hmode hkind =>
      simp [scan, hmode, hkind, isBlank_of_punctuation? hkind]
    | string hmode hquote hreach =>
      rcases hquote with rfl | rfl <;> simp [scan, hmode, hreach, isBlank, punctuation?]
    | atWord hmode hat =>
      subst hat
      simp [scan, hmode, isBlank, punctuation?]
    | comment hmode hslash hstar hreach =>
      subst hslash hstar
      simp [scan, hmode, hreach, isBlank, punctuation?]
    | word hmode hstart =>
      obtain ⟨hblank, hkind, hsingle, hdouble, hat, hcomment⟩ := hstart
      simp only [scan, hmode, hblank, hkind, hsingle, hdouble, hat, hcomment, if_false, or_self,
        Bool.false_eq_true]

/-- **The next token is determined** by the text ahead. -/
theorem Scans.unique {mode : Mode} {c : Char} {cs : List Char} {kind kind' : Kind} {n n' : Nat}
    (h : Scans c cs mode kind n) (h' : Scans c cs mode kind' n') : kind = kind' ∧ n = n' := by
  have hok := (scan_eq_ok_iff.mpr h).symm.trans (scan_eq_ok_iff.mpr h')
  simpa using hok

/-- A token that is an opening parenthesis is one. -/
theorem Scans.kind_eq_parenOpen {c : Char} {cs : List Char} {mode : Mode} {n : Nat}
    (h : Scans c cs mode .parenOpen n) : c = '(' := by
  generalize hkind : Kind.parenOpen = kind at h
  cases h with
  | punctuation _ hpunct =>
    subst hkind
    unfold punctuation? at hpunct
    split at hpunct <;> first | rfl | cases hpunct
  | _ => cases hkind

theorem Scans.reach_eq_zero_of_parenOpen {c : Char} {cs : List Char} {mode : Mode} {n : Nat}
    (h : Scans c cs mode .parenOpen n) : n = 0 := by
  generalize hkind : Kind.parenOpen = kind at h
  cases h with
  | punctuation => rfl
  | _ => cases hkind

/-! ### How far a token reaches -/

theorem wordTail_le_length (cs : List Char) : wordTail cs ≤ cs.length := by
  fun_induction wordTail cs <;> simp_all

theorem stringTail_le_length {quote : Char} {cs : List Char} {n : Nat}
    (h : stringTail quote cs = some n) : n ≤ cs.length := by
  fun_induction stringTail quote cs generalizing n with
  | case1 => simp at h
  | case2 => simp at h
  | case3 c cs ih =>
    obtain ⟨k, hk, rfl⟩ := Option.map_eq_some_iff.mp h
    simpa using ih hk
  | case4 cs =>
    obtain rfl : 1 = n := by simpa using h
    simp
  | case5 c cs _ _ hc ih =>
    obtain ⟨k, hk, rfl⟩ := Option.map_eq_some_iff.mp h
    simpa using ih hk

/-- A comment ends with the mark that closes it. -/
theorem commentTail_spec {cs : List Char} {n : Nat} (h : commentTail cs = some n) :
    n ≤ cs.length ∧ ∃ inner, cs.take n = inner ++ ['*', '/'] := by
  fun_induction commentTail cs generalizing n with
  | case1 => simp at h
  | case2 cs =>
    obtain rfl : 2 = n := by simpa using h
    exact ⟨by simp, [], by simp⟩
  | case3 c cs _ ih =>
    obtain ⟨k, hk, rfl⟩ := Option.map_eq_some_iff.mp h
    obtain ⟨hle, inner, htake⟩ := ih hk
    exact ⟨by simpa using hle, c :: inner, by simp [htake]⟩

theorem addressTail_le_length {cs : List Char} {n : Nat} (h : addressTail cs = some n) :
    n ≤ cs.length := by
  fun_induction addressTail cs generalizing n with
  | case1 => simp at h
  | case2 => simp at h
  | case3 c cs ih =>
    obtain ⟨k, hk, rfl⟩ := Option.map_eq_some_iff.mp h
    simpa using ih hk
  | case4 cs =>
    obtain rfl : 0 = n := by simpa using h
    simp
  | case5 c cs _ _ hc ih =>
    obtain ⟨k, hk, rfl⟩ := Option.map_eq_some_iff.mp h
    simpa using ih hk

theorem scanWord_le_length (c : Char) (cs : List Char) : scanWord c cs ≤ cs.length := by
  unfold scanWord
  split
  · simp
  · simpa using wordTail_le_length _
  · exact wordTail_le_length _

theorem scanAddress_le_length {c : Char} {cs : List Char} {n : Nat}
    (h : scanAddress c cs = some n) : n ≤ cs.length := by
  unfold scanAddress at h
  split at h
  · cases h
  · obtain ⟨k, hk, rfl⟩ := Option.map_eq_some_iff.mp h
    simpa using addressTail_le_length hk
  · exact addressTail_le_length h

/-- **A token never reaches behind the text ahead.** -/
theorem Scans.le_length {c : Char} {cs : List Char} {mode : Mode} {kind : Kind} {n : Nat}
    (h : Scans c cs mode kind n) : n ≤ cs.length := by
  cases h with
  | address hreach => exact scanAddress_le_length hreach
  | space => exact (List.takeWhile_prefix _).length_le
  | punctuation => exact Nat.zero_le _
  | string _ _ hreach => exact stringTail_le_length hreach
  | atWord => exact (List.takeWhile_prefix _).length_le
  | comment _ _ hstar hreach =>
    subst hstar
    simpa using (commentTail_spec hreach).1
  | word => exact scanWord_le_length c cs

/-! ### Texts and kinds -/

/-- **What a text has to look like for a kind.**  Words, strings and brackets are left open: nothing
that the parser does depends on their texts. -/
def Kind.Spells : Kind → List Char → Prop
  | .space, cs => ∀ c ∈ cs, isBlank c = true
  | .comment, cs => ∃ inner, cs = '/' :: '*' :: (inner ++ ['*', '/'])
  | .atWord, cs => ∃ name, cs = '@' :: name
  | .semicolon, cs => cs = [';']
  | .colon, cs => cs = [':']
  | .braceOpen, cs => cs = ['\x7b']
  | .braceClose, cs => cs = ['\x7d']
  | _, _ => True

/-- A token has the text that its kind demands, if there is only one. -/
theorem text_eq_of_spells {t : Token} {text : String} (hspells : t.kind.Spells t.text.toList)
    (hkind : t.kind.Spells = (· = text.toList)) : t.text = text := by
  rw [hkind] at hspells
  exact String.toList_inj.mp hspells

/-- Punctuation spells itself. -/
theorem punctuation?_spells {c : Char} {kind : Kind} (h : punctuation? c = some kind) :
    kind.Spells [c] := by
  unfold punctuation? at h
  split at h <;> cases h <;> simp [Kind.Spells]

/-- **The text of a token fits its kind.** -/
theorem Scans.spells {c : Char} {cs : List Char} {mode : Mode} {kind : Kind} {n : Nat}
    (h : Scans c cs mode kind n) : kind.Spells (c :: cs.take n) := by
  cases h with
  | address | string | word => trivial
  | space _ hblank =>
    intro d hd
    rcases List.mem_cons.mp hd with rfl | hd
    · exact hblank
    · rw [← List.prefix_iff_eq_take.mp (List.takeWhile_prefix _)] at hd
      exact List.mem_takeWhile_imp hd
  | punctuation _ hkind => simpa using punctuation?_spells hkind
  | atWord _ hat => exact ⟨_, by rw [hat]⟩
  | comment _ hslash hstar hreach =>
    subst hslash hstar
    obtain ⟨-, inner, htake⟩ := commentTail_spec hreach
    exact ⟨inner, by simp [htake]⟩

end Token

end LosslessCss
