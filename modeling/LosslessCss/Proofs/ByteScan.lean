import LosslessCss.Proofs.Lookahead

/-!
# Scanning bytes

A text can be scanned byte by byte, each byte taken for the character with its number.  Every
character that a scan looks for is an ASCII character, and such a character is a byte of its own,
while the bytes of any other character have numbers from 128 on.  So the bytes behind the first one
of a character are passed like the first one, and this holds behind a backslash as well, which takes
a byte along and thus may leave the scan inside a character.

The scan of the bytes finds the same tokens as the scan of the characters (`Token.scan_spell`): it
never ends inside a character, whatever it has escaped.

## Main Definitions

* `Text.encode` : the bytes of a text
* `Text.spell` : the same bytes as characters
* `Text.Spelled` : one character and its bytes

## Main Statements

* `Text.encode_toList` : these are the bytes of a string
* `Text.exists_spelled` : what the bytes of a character are like
* `Token.scan_spell` : bytes and characters give the same tokens
-/

namespace LosslessCss

open String (utf8Len utf8Len_cons utf8Len_nil utf8Len_append)

namespace Text

/-! ### The bytes of a text -/

/-- **The bytes of a text** in UTF-8. -/
def encode (cs : List Char) : List UInt8 := cs.flatMap String.utf8EncodeChar

/-- A byte that continues a character. -/
def isContinuation (b : UInt8) : Bool := b &&& 0xC0 == 0x80

/-- The character with the number of a byte. -/
def ofByte (b : UInt8) : Char := Char.ofNat b.toNat

/-- **The bytes of a text**, each as the character with its number. -/
def spell (cs : List Char) : List Char := (encode cs).map ofByte

@[simp]
theorem encode_nil : encode [] = [] := rfl

@[simp]
theorem encode_cons (c : Char) (cs : List Char) :
    encode (c :: cs) = String.utf8EncodeChar c ++ encode cs := rfl

@[simp]
theorem encode_append (cs ds : List Char) : encode (cs ++ ds) = encode cs ++ encode ds :=
  List.flatMap_append

@[simp]
theorem length_encode (cs : List Char) : (encode cs).length = utf8Len cs := by
  induction cs with
  | nil => rfl
  | cons c cs ih =>
    rw [encode_cons, List.length_append, String.length_utf8EncodeChar, ih, utf8Len_cons,
      Nat.add_comm]

theorem take_encode_append (front rest : List Char) :
    (encode (front ++ rest)).take (utf8Len front) = encode front := by
  rw [encode_append, ← length_encode, List.take_left]

theorem drop_encode_append (front rest : List Char) :
    (encode (front ++ rest)).drop (utf8Len front) = encode rest := by
  rw [encode_append, ← length_encode, List.drop_left]

/-- The bytes of a string are those of its characters. -/
theorem encode_toList (s : String) : encode s.toList = s.toByteArray.data.toList := by
  rw [← String.utf8Encode_toList, List.utf8Encode]
  simp [encode]

theorem toNat_ofByte (b : UInt8) : (ofByte b).toNat = b.toNat := by
  have hb : b.toNat < 256 := b.toNat_lt
  rw [ofByte, Char.toNat_ofNat, if_pos (.inl (by omega))]

/-- **The bytes of a character**: an ASCII character is its own byte.  The bytes of any other
character have numbers from 128 on.  Only the first byte of a character continues none. -/
theorem utf8EncodeChar_cases (c : Char) :
    (c.toNat < 128 ∧ String.utf8EncodeChar c = [UInt8.ofNat c.toNat] ∧
        isContinuation (UInt8.ofNat c.toNat) = false) ∨
      (128 ≤ c.toNat ∧ ∃ lead tail, String.utf8EncodeChar c = lead :: tail ∧
        128 ≤ lead.toNat ∧ isContinuation lead = false ∧
          ∀ b ∈ tail, 128 ≤ b.toNat ∧ isContinuation b = true) := by
  have hlead {n k : Nat} (hn : n < 64) (hk : k = 0xC0 ∧ n < 32 ∨ k = 0xE0 ∧ n < 16 ∨
      k = 0xF0 ∧ n < 8) : 128 ≤ (UInt8.ofNat (n + k)).toNat ∧
        isContinuation (UInt8.ofNat (n + k)) = false := by
    rcases hk with ⟨rfl, hk⟩ | ⟨rfl, hk⟩ | ⟨rfl, hk⟩ <;> revert n <;> decide
  have htail (n : Nat) : 128 ≤ (UInt8.ofNat (n % 0x40 + 0x80)).toNat ∧
      isContinuation (UInt8.ofNat (n % 0x40 + 0x80)) = true := by
    have hn : n % 0x40 < 0x40 := Nat.mod_lt _ (by decide)
    generalize n % 0x40 = m at hn
    revert m
    decide
  have hnone : ∀ b ∈ ([] : List UInt8), 128 ≤ b.toNat ∧ isContinuation b = true := by simp
  have hval : c.val.toNat = c.toNat := rfl
  rw [String.utf8EncodeChar, hval]
  split
  · have hc : c.toNat < 128 := by omega
    refine .inl ⟨hc, rfl, ?_⟩
    generalize c.toNat = n at hc
    revert n
    decide
  · refine .inr ⟨by omega, ?_⟩
    split
    · obtain ⟨hhigh, hfirst⟩ := hlead (n := c.toNat / 64 % 0x20) (k := 0xC0) (by omega) (by omega)
      exact ⟨_, _, rfl, hhigh, hfirst,
        by simpa only [List.forall_mem_cons, htail, true_and] using hnone⟩
    · split
      · obtain ⟨hhigh, hfirst⟩ :=
          hlead (n := c.toNat / 4096 % 0x10) (k := 0xE0) (by omega) (by omega)
        exact ⟨_, _, rfl, hhigh, hfirst,
          by simpa only [List.forall_mem_cons, htail, true_and] using hnone⟩
      · obtain ⟨hhigh, hfirst⟩ :=
          hlead (n := c.toNat / 262144 % 0x08) (k := 0xF0) (by omega) (by omega)
        exact ⟨_, _, rfl, hhigh, hfirst,
          by simpa only [List.forall_mem_cons, htail, true_and] using hnone⟩

theorem exists_utf8EncodeChar (c : Char) : ∃ lead tail, String.utf8EncodeChar c = lead :: tail ∧
    isContinuation lead = false ∧ ∀ b ∈ tail, isContinuation b = true := by
  rcases utf8EncodeChar_cases c with ⟨-, hbytes, hfirst⟩ | ⟨-, lead, tail, hbytes, -, hfirst, htail⟩
  · exact ⟨_, [], hbytes, hfirst, by simp⟩
  · exact ⟨lead, tail, hbytes, hfirst, fun b hb => (htail b hb).2⟩

/-- **A character and its bytes**, each as the character with its number: the first one tells as
much about the character as a scan wants to know, and the others are not ASCII characters. -/
structure Spelled (c first : Char) (others : List Char) : Prop where
  size : others.length + 1 = c.utf8Size
  high : ∀ d ∈ others, 128 ≤ d.toNat
  start : first = c ∧ others = [] ∨ 128 ≤ c.toNat ∧ 128 ≤ first.toNat

theorem exists_spelled (c : Char) : ∃ first others, Spelled c first others ∧
    ∀ cs, spell (c :: cs) = first :: (others ++ spell cs) := by
  have hlength := String.length_utf8EncodeChar c
  rcases utf8EncodeChar_cases c with ⟨hc, hbytes, -⟩ | ⟨hc, lead, tail, hbytes, hlead, -, htail⟩
  · have hself : ofByte (UInt8.ofNat c.toNat) = c := by
      have hsame : (UInt8.ofNat c.toNat).toNat = c.toNat :=
        UInt8.toNat_ofNat_of_lt' (hc.trans (by decide))
      rw [ofByte, hsame, Char.ofNat_toNat]
    refine ⟨c, [], ⟨by simpa [hbytes] using hlength, by simp, .inl ⟨rfl, rfl⟩⟩, fun cs => ?_⟩
    simp [spell, hbytes, hself]
  · refine ⟨ofByte lead, tail.map ofByte, ⟨?_, ?_, .inr ⟨hc, ?_⟩⟩, fun cs => ?_⟩
    · simpa [hbytes] using hlength
    · intro d hd
      obtain ⟨b, hb, rfl⟩ := List.mem_map.mp hd
      exact (toNat_ofByte b).symm ▸ (htail b hb).1
    · exact (toNat_ofByte lead).symm ▸ hlead
    · simp [spell, hbytes]

@[simp]
theorem spell_nil : spell [] = [] := rfl

@[simp]
theorem length_spell (cs : List Char) : (spell cs).length = utf8Len cs := by
  rw [spell, List.length_map, length_encode]

/-- An ASCII character spells itself. -/
theorem spell_cons_of_lt {c : Char} (hc : c.toNat < 128) (cs : List Char) :
    spell (c :: cs) = c :: spell cs := by
  obtain ⟨first, others, hspelled, hspell⟩ := exists_spelled c
  obtain ⟨rfl, rfl⟩ := hspelled.start.resolve_right fun hhigh => by omega
  exact hspell cs

namespace Spelled

variable {c first x : Char} {others cs : List Char}

/-- A test that treats all characters but ASCII ones alike treats a character like its first
byte. -/
theorem test_eq (h : Spelled c first others) {α : Sort*} {test : Char → α} {default : α}
    (htest : ∀ d : Char, 128 ≤ d.toNat → test d = default) : test first = test c := by
  rcases h.start with ⟨rfl, -⟩ | ⟨hc, hfirst⟩
  · rfl
  · rw [htest first hfirst, htest c hc]

theorem eq_iff (h : Spelled c first others) (hx : x.toNat < 128) : first = x ↔ c = x := by
  have hother (d : Char) (hd : 128 ≤ d.toNat) : (d = x) = False := by
    refine eq_false ?_
    rintro rfl
    omega
  exact iff_of_eq (h.test_eq hother)

end Spelled

/-- The first byte of a text is an ASCII character if the first character is. -/
theorem head?_spell {x : Char} (hx : x.toNat < 128) (cs : List Char) :
    (spell cs).head? = some x ↔ cs.head? = some x := by
  cases cs with
  | nil => rfl
  | cons c cs =>
    obtain ⟨first, others, hspelled, hspell⟩ := exists_spelled c
    rw [hspell, List.head?_cons, List.head?_cons, Option.some_inj, Option.some_inj,
      hspelled.eq_iff hx]

theorem any_head?_spell {test : Char → Bool} {default : Bool}
    (htest : ∀ d : Char, 128 ≤ d.toNat → test d = default) (cs : List Char) :
    (spell cs).head?.any test = cs.head?.any test := by
  cases cs with
  | nil => rfl
  | cons c cs =>
    obtain ⟨first, others, hspelled, hspell⟩ := exists_spelled c
    rw [hspell, List.head?_cons, List.head?_cons, Option.any_some, Option.any_some,
      hspelled.test_eq htest]

/-- Two ASCII characters stand at the start of the bytes if they stand at the start of the text. -/
theorem Spelled.pair_iff {c first x y : Char} {others : List Char} (h : Spelled c first others)
    (hx : x.toNat < 128) (hy : y.toNat < 128) (cs : List Char) :
    (first = x ∧ (others ++ spell cs).head? = some y) ↔ c = x ∧ cs.head? = some y := by
  rw [h.eq_iff hx]
  refine and_congr_right fun hc => ?_
  obtain ⟨-, rfl⟩ := h.start.resolve_right fun hhigh => by subst hc; omega
  exact head?_spell hy cs

/-! ### Lengths in bytes -/

/-- The number of bytes of the first characters of a text. -/
def bytesOf (cs : List Char) (n : Nat) : Nat := utf8Len (cs.take n)

theorem bytesOf_succ (c : Char) (cs : List Char) (n : Nat) :
    bytesOf (c :: cs) (n + 1) = bytesOf cs n + c.utf8Size := rfl

theorem utf8Size_of_lt {c : Char} (hc : c.toNat < 128) : c.utf8Size = 1 := by
  obtain ⟨first, others, hspelled, -⟩ := exists_spelled c
  obtain ⟨-, rfl⟩ := hspelled.start.resolve_right fun hhigh => by omega
  exact hspelled.size.symm

namespace Spelled

variable {c first : Char} {others : List Char} (h : Spelled c first others) (cs : List Char)

include h

theorem bytesOf_succ (n : Nat) : bytesOf (c :: cs) (n + 1) = bytesOf cs n + others.length + 1 := by
  rw [Text.bytesOf_succ, ← h.size]
  rfl

/-- A scan that passes a character passes all its bytes. -/
theorem map_bytesOf_cons (reach : Option Nat) :
    ((reach.map (bytesOf cs)).map (· + others.length)).map (· + 1) =
      (reach.map (· + 1)).map (bytesOf (c :: cs)) := by
  cases reach with
  | none => rfl
  | some n => exact congrArg some (h.bytesOf_succ cs n).symm

/-- A backslash takes a byte along, and the scan then passes the others. -/
theorem map_bytesOf_escape (reach : Option Nat) :
    ((reach.map (bytesOf cs)).map (· + others.length)).map (· + 2) =
      (reach.map (· + 2)).map (bytesOf ('\\' :: c :: cs)) := by
  cases reach with
  | none => rfl
  | some n =>
    have hrest := h.bytesOf_succ cs n
    have hback : utf8Len ('\\' :: (c :: cs).take (n + 1)) = bytesOf (c :: cs) (n + 1) + 1 := by
      rw [utf8Len_cons, utf8Size_of_lt (by decide), bytesOf]
    exact congrArg some ((hback.trans (by rw [hrest])).symm)

end Spelled

end Text

namespace Token

open Text

/-! ### What a scan looks for -/

section High

variable {d : Char} (hd : 128 ≤ d.toNat)

include hd

theorem ne_of_high {x : Char} (hx : x.toNat < 128) : d ≠ x := by
  rintro rfl
  omega

theorem isBlank_of_high : isBlank d = false := by
  simp (disch := decide) [isBlank, ne_of_high hd]

theorem endsWord_of_high : endsWord d = false := by
  simp (disch := decide) [endsWord, isBlank_of_high hd, ne_of_high hd]

theorem endsAtWord_of_high : endsAtWord d = false := by
  simp (disch := decide) [endsAtWord, isBlank_of_high hd, ne_of_high hd]

theorem startsAddress_of_high : startsAddress d = true := by
  simp (disch := decide) [startsAddress, isBlank_of_high hd, ne_of_high hd]

theorem punctuation?_of_high : punctuation? d = none := by
  unfold punctuation?
  split <;> first | rfl | exact absurd hd (by decide)

end High

/-! ### How far a token reaches -/

section Run

-- What stands in front are bytes that continue a character, so a scan just passes them.
variable {ds : List Char} (hds : ∀ d ∈ ds, 128 ≤ d.toNat) (cs : List Char)

include hds

theorem wordTail_high_append : wordTail (ds ++ cs) = wordTail cs + ds.length :=
  wordTail_append_of_forall cs fun d hd => ⟨endsWord_of_high (hds d hd),
    ne_of_high (hds d hd) (by decide), ne_of_high (hds d hd) (by decide)⟩

theorem stringTail_high_append {quote : Char} (hquote : quote.toNat < 128) :
    stringTail quote (ds ++ cs) = (stringTail quote cs).map (· + ds.length) :=
  stringTail_append_of_forall cs fun d hd =>
    ⟨ne_of_high (hds d hd) (by decide), ne_of_high (hds d hd) hquote⟩

theorem commentTail_high_append :
    commentTail (ds ++ cs) = (commentTail cs).map (· + ds.length) :=
  commentTail_append_of_forall cs fun d hd => ne_of_high (hds d hd) (by decide)

theorem addressTail_high_append :
    addressTail (ds ++ cs) = (addressTail cs).map (· + ds.length) :=
  addressTail_append_of_forall cs fun d hd =>
    ⟨ne_of_high (hds d hd) (by decide), ne_of_high (hds d hd) (by decide)⟩

end Run

/-- **A word of bytes** reaches as far as the word of characters. -/
theorem wordTail_spell (cs : List Char) : wordTail (spell cs) = bytesOf cs (wordTail cs) := by
  fun_induction dangles cs with
  | case1 => rfl
  | case2 => rfl
  | case3 c cs ih =>
    obtain ⟨first, others, hspelled, hspell⟩ := exists_spelled c
    have hescape := hspelled.map_bytesOf_escape cs (some (wordTail cs))
    rw [spell_cons_of_lt (by decide), hspell, wordTail_escape, wordTail_escape,
      wordTail_high_append hspelled.high, ih]
    exact Option.some.inj hescape
  | case4 c cs hne₁ hne₂ ih =>
    have hc : c ≠ '\\' := ne_backslash hne₁ hne₂
    obtain ⟨first, others, hspelled, hspell⟩ := exists_spelled c
    have hfirst : first ≠ '\\' := fun heq => hc ((hspelled.eq_iff (by decide)).mp heq)
    have hcomment := hspelled.pair_iff (x := '/') (y := '*') (by decide) (by decide) cs
    rw [hspell, wordTail_cons_of_ne _ hfirst, wordTail_cons_of_ne _ hc,
      hspelled.test_eq fun d hd => endsWord_of_high hd]
    simp only [hcomment]
    split
    · rfl
    · rw [wordTail_high_append hspelled.high, ih, hspelled.bytesOf_succ]

/-- **A string of bytes** is closed where the string of characters is. -/
theorem stringTail_spell {quote : Char} (hquote : quote.toNat < 128) (cs : List Char) :
    stringTail quote (spell cs) = (stringTail quote cs).map (bytesOf cs) := by
  fun_induction dangles cs with
  | case1 => rfl
  | case2 => rfl
  | case3 c cs ih =>
    obtain ⟨first, others, hspelled, hspell⟩ := exists_spelled c
    rw [spell_cons_of_lt (by decide), hspell, stringTail_escape, stringTail_escape,
      stringTail_high_append hspelled.high _ hquote, ih, hspelled.map_bytesOf_escape]
  | case4 c cs hne₁ hne₂ ih =>
    have hc : c ≠ '\\' := ne_backslash hne₁ hne₂
    obtain ⟨first, others, hspelled, hspell⟩ := exists_spelled c
    have hfirst : first ≠ '\\' := fun heq => hc ((hspelled.eq_iff (by decide)).mp heq)
    rw [hspell, stringTail_cons_of_ne _ hfirst, stringTail_cons_of_ne _ hc]
    simp only [hspelled.eq_iff hquote]
    split
    · next hclose => simp [bytesOf, hclose, utf8Size_of_lt hquote]
    · rw [stringTail_high_append hspelled.high _ hquote, ih, hspelled.map_bytesOf_cons]

/-- **A comment of bytes** is closed where the comment of characters is. -/
theorem commentTail_spell (cs : List Char) :
    commentTail (spell cs) = (commentTail cs).map (bytesOf cs) := by
  induction cs with
  | nil => rfl
  | cons c cs ih =>
    obtain ⟨first, others, hspelled, hspell⟩ := exists_spelled c
    have hclose := hspelled.pair_iff (x := '*') (y := '/') (by decide) (by decide) cs
    rw [hspell, commentTail_cons, commentTail_cons]
    simp only [hclose]
    split
    · next hmark =>
      obtain ⟨ds, rfl⟩ := List.head?_eq_some_iff.mp hmark.2
      simp [bytesOf, hmark.1, utf8Size_of_lt]
    · rw [commentTail_high_append hspelled.high, ih, hspelled.map_bytesOf_cons]

/-- **An address of bytes** is closed where the address of characters is. -/
theorem addressTail_spell (cs : List Char) :
    addressTail (spell cs) = (addressTail cs).map (bytesOf cs) := by
  fun_induction dangles cs with
  | case1 => rfl
  | case2 => rfl
  | case3 c cs ih =>
    obtain ⟨first, others, hspelled, hspell⟩ := exists_spelled c
    rw [spell_cons_of_lt (by decide), hspell, addressTail_escape, addressTail_escape,
      addressTail_high_append hspelled.high, ih, hspelled.map_bytesOf_escape]
  | case4 c cs hne₁ hne₂ ih =>
    have hc : c ≠ '\\' := ne_backslash hne₁ hne₂
    obtain ⟨first, others, hspelled, hspell⟩ := exists_spelled c
    have hfirst : first ≠ '\\' := fun heq => hc ((hspelled.eq_iff (by decide)).mp heq)
    rw [hspell, addressTail_cons_of_ne _ hfirst, addressTail_cons_of_ne _ hc]
    simp only [hspelled.eq_iff (x := ')') (by decide)]
    split
    · rfl
    · rw [addressTail_high_append hspelled.high, ih, hspelled.map_bytesOf_cons]

/-- **A run of bytes** of one class reaches as far as the run of characters, if the class has all
characters but ASCII ones or none of them. -/
theorem length_takeWhile_spell {p : Char → Bool} {default : Bool}
    (hp : ∀ d : Char, 128 ≤ d.toNat → p d = default) (cs : List Char) :
    ((spell cs).takeWhile p).length = bytesOf cs (cs.takeWhile p).length := by
  induction cs with
  | nil => rfl
  | cons c cs ih =>
    obtain ⟨first, others, hspelled, hspell⟩ := exists_spelled c
    have hfirst := hspelled.test_eq hp
    cases hc : p c with
    | false => simp [hspell, hfirst, hc, bytesOf]
    | true =>
      have hothers : ∀ d ∈ others, p d = true := by
        intro d hd
        -- There are others only behind the first byte of a character that is no ASCII one.
        have hhigh := hspelled.start.resolve_left fun hself => by simp [hself.2] at hd
        rw [hp d (hspelled.high d hd), ← hp c hhigh.1, hc]
      have hsize := hspelled.size
      rw [hspell, List.takeWhile_cons_of_pos (hfirst.trans hc), List.takeWhile_cons_of_pos hc,
        List.takeWhile_append_of_pos hothers, List.length_cons, List.length_append, ih]
      simp only [bytesOf, List.length_cons, List.take_succ_cons, utf8Len_cons]
      omega

/-! ### The next token -/

section Scan

variable {c first : Char} {others : List Char} (hspelled : Spelled c first others) (cs : List Char)

include hspelled

theorem scanWord_spell :
    scanWord first (others ++ spell cs) = bytesOf cs (scanWord c cs) + others.length := by
  by_cases hc : c = '\\'
  · subst hc
    obtain ⟨rfl, rfl⟩ := hspelled.start.resolve_right fun hhigh => absurd hhigh.1 (by decide)
    cases cs with
    | nil => rfl
    | cons d ds =>
      obtain ⟨next, more, hnext, hspell⟩ := exists_spelled d
      rw [List.nil_append, hspell, scanWord, scanWord, wordTail_high_append hnext.high,
        wordTail_spell, hnext.bytesOf_succ]
      rfl
  · have hfirst : first ≠ '\\' := fun heq => hc ((hspelled.eq_iff (by decide)).mp heq)
    rw [scanWord_of_ne hc, scanWord_of_ne hfirst, wordTail_high_append hspelled.high,
      wordTail_spell]

theorem scanAddress_spell :
    scanAddress first (others ++ spell cs) =
      ((scanAddress c cs).map (bytesOf cs)).map (· + others.length) := by
  by_cases hc : c = '\\'
  · subst hc
    obtain ⟨rfl, rfl⟩ := hspelled.start.resolve_right fun hhigh => absurd hhigh.1 (by decide)
    cases cs with
    | nil => rfl
    | cons d ds =>
      obtain ⟨next, more, hnext, hspell⟩ := exists_spelled d
      rw [List.nil_append, hspell, scanAddress, scanAddress, addressTail_high_append hnext.high,
        addressTail_spell, hnext.map_bytesOf_cons]
      cases addressTail ds <;> rfl
  · have hfirst : first ≠ '\\' := fun heq => hc ((hspelled.eq_iff (by decide)).mp heq)
    rw [scanAddress_of_ne hc, scanAddress_of_ne hfirst, addressTail_high_append hspelled.high,
      addressTail_spell]

/-- **Bytes and characters give the same tokens.**  The scan of the bytes finds the kind that the
scan of the characters finds, or the same text that is not closed, and it reaches to the end of the
same character. -/
theorem scan_spell (mode : Mode) :
    scan mode first (others ++ spell cs) =
      (scan mode c cs).map fun token => (token.1, bytesOf cs token.2 + others.length) := by
  rcases hspelled.start with ⟨rfl, rfl⟩ | ⟨hc, hfirst⟩
  · rw [List.nil_append, scan, scan]
    by_cases hmode : mode = .address
    · rw [if_pos hmode, if_pos hmode, ← List.nil_append (spell cs), scanAddress_spell hspelled]
      cases scanAddress first cs <;> rfl
    rw [if_neg hmode, if_neg hmode]
    by_cases hblank : isBlank first = true
    · rw [if_pos hblank, if_pos hblank, length_takeWhile_spell fun d hd => isBlank_of_high hd]
      rfl
    rw [if_neg hblank, if_neg hblank]
    cases hkind : punctuation? first with
    | some kind => rfl
    | none =>
      dsimp only
      by_cases hquote : first = '\'' ∨ first = '"'
      · have hlow : first.toNat < 128 := by rcases hquote with rfl | rfl <;> decide
        rw [if_pos hquote, if_pos hquote, stringTail_spell hlow]
        cases stringTail first cs <;> rfl
      rw [if_neg hquote, if_neg hquote]
      by_cases hat : first = '@'
      · have hrun := length_takeWhile_spell (p := fun c => !endsAtWord c) (fun d hd => by
          rw [endsAtWord_of_high hd]) cs
        rw [if_pos hat, if_pos hat, atWordTail, hrun]
        rfl
      rw [if_neg hat, if_neg hat]
      by_cases hcomment : first = '/' ∧ cs.head? = some '*'
      · obtain ⟨rfl, hhead⟩ := hcomment
        obtain ⟨ds, rfl⟩ := List.head?_eq_some_iff.mp hhead
        rw [spell_cons_of_lt (by decide)]
        simp only [List.head?_cons, List.tail_cons, and_self, if_true, commentTail_spell]
        cases commentTail ds with
        | none => rfl
        | some n =>
          have hstar := bytesOf_succ '*' ds n
          exact congrArg (fun k => Except.ok (Kind.comment, k)) hstar.symm
      · have hcomment' : ¬ (first = '/' ∧ (spell cs).head? = some '*') := fun h =>
          hcomment ⟨h.1, (head?_spell (by decide) cs).mp h.2⟩
        rw [if_neg hcomment, if_neg hcomment', ← List.nil_append (spell cs),
          scanWord_spell hspelled]
        rfl
  · -- Where no ASCII character starts there is an address or a word.
    by_cases hmode : mode = .address
    · rw [scan, scan, if_pos hmode, if_pos hmode, scanAddress_spell hspelled]
      cases scanAddress c cs <;> rfl
    · have hword {c : Char} (hc : 128 ≤ c.toNat) (cs : List Char) :
          scan mode c cs = .ok (.word, scanWord c cs) := by
        simp (disch := decide) only [scan, if_neg hmode, isBlank_of_high hc,
          punctuation?_of_high hc, ne_of_high hc, false_or, false_and, Bool.false_eq_true, if_false]
      rw [hword hc, hword hfirst, scanWord_spell hspelled]
      rfl

end Scan

end Token

end LosslessCss
