import LosslessCss.Value.Length
import LosslessCss.Proofs.ByteScan

/-!
# How far stretches reach

A value has stretches that are read as a whole: quoted strings, comments and addresses.  Each of them
reaches to the end of the text, or it has a mark that closes it.  In the second case nothing behind
that mark makes a difference (`Value.Length.protectedTail?_cases`), so a stretch is found again in
front of any other text.

Bytes and characters give the same stretches (`Value.Length.protectedTail?_spell`), as they give the
same tokens: all that is looked for are ASCII characters.

## Main Statements

* `Value.quotedTail_cases`, `Value.commentLength_cases`, `Value.Length.addressLength_cases`
* `Value.Length.protectedTail?_cases`
* `Value.Length.protectedTail?_spell`
-/

namespace LosslessCss

open String (utf8Len utf8Len_cons)

namespace Token

/-- A string ends with the quote that closes it. -/
theorem stringTail_spec {quote : Char} {cs : List Char} {n : Nat}
    (h : stringTail quote cs = some n) :
    ∃ inner rest, cs = inner ++ quote :: rest ∧ n = inner.length + 1 := by
  fun_induction stringTail quote cs generalizing n with
  | case1 => cases h
  | case2 => cases h
  | case3 c cs ih =>
    obtain ⟨k, hk, rfl⟩ := Option.map_eq_some_iff.mp h
    obtain ⟨inner, rest, rfl, rfl⟩ := ih hk
    exact ⟨'\\' :: c :: inner, rest, rfl, rfl⟩
  | case4 cs =>
    obtain rfl : 1 = n := by simpa using h
    exact ⟨[], cs, rfl, rfl⟩
  | case5 c cs _ _ _ ih =>
    obtain ⟨k, hk, rfl⟩ := Option.map_eq_some_iff.mp h
    obtain ⟨inner, rest, rfl, rfl⟩ := ih hk
    exact ⟨c :: inner, rest, rfl, rfl⟩

end Token

namespace Text

theorem spell_append (cs ds : List Char) : spell (cs ++ ds) = spell cs ++ spell ds := by
  rw [spell, encode_append, List.map_append, spell, spell]

/-- A text of ASCII characters spells itself. -/
theorem spell_of_forall {cs : List Char} (h : ∀ c ∈ cs, c.toNat < 128) : spell cs = cs := by
  induction cs with
  | nil => rfl
  | cons c cs ih =>
    obtain ⟨hc, hcs⟩ := List.forall_mem_cons.mp h
    rw [spell_cons_of_lt hc, ih hcs]

theorem drop_spell (cs : List Char) (n : Nat) :
    (spell cs).drop (bytesOf cs n) = spell (cs.drop n) := by
  have hcut := drop_encode_append (cs.take n) (cs.drop n)
  rw [List.take_append_drop] at hcut
  rw [spell, bytesOf, ← List.map_drop, hcut, spell]

theorem bytesOf_length (cs : List Char) : bytesOf cs cs.length = utf8Len cs := by
  rw [bytesOf, List.take_length]

theorem bytesOf_add (cs : List Char) (m n : Nat) :
    bytesOf cs (m + n) = bytesOf cs m + bytesOf (cs.drop m) n := by
  rw [bytesOf, List.take_add, String.utf8Len_append, bytesOf, bytesOf]

/-- The reach of a scan that may come to the end of the text. -/
theorem getD_map_bytesOf (cs : List Char) (reach : Option Nat) :
    (reach.map (bytesOf cs)).getD (spell cs).length = bytesOf cs (reach.getD cs.length) := by
  cases reach with
  | none => rw [Option.map_none, Option.getD_none, Option.getD_none, length_spell, bytesOf_length]
  | some n => rfl

end Text

namespace Value

open Text

/-! ### Strings and comments -/

theorem quotedTail_cons_of_ne {quote c : Char} (cs : List Char) (h : c ≠ '\\') :
    quotedTail quote (c :: cs) = if c = quote then 1 else quotedTail quote cs + 1 := by
  rw [quotedTail.eq_def]
  split <;> simp_all

/-- **A string without an end** reaches to the end of the text. -/
theorem quotedTail_eq (quote : Char) (cs : List Char) :
    quotedTail quote cs = (Token.stringTail quote cs).getD cs.length := by
  fun_induction Token.dangles cs with
  | case1 => rfl
  | case2 => rfl
  | case3 c cs ih =>
    rw [Token.stringTail_escape, quotedTail, ih]
    cases Token.stringTail quote cs <;> rfl
  | case4 c cs hne₁ hne₂ ih =>
    have hc : c ≠ '\\' := Token.ne_backslash hne₁ hne₂
    rw [Token.stringTail_cons_of_ne _ hc, quotedTail_cons_of_ne _ hc, ih]
    split
    · rfl
    · cases Token.stringTail quote cs <;> rfl

/-- A closed string is one unit. -/
theorem quotedTail_append {quote : Char} {text : List Char}
    (h : Token.stringTail quote text = some text.length) (cs : List Char) :
    quotedTail quote (text ++ cs) = text.length := by
  rw [quotedTail_eq, (Token.stringTail_append_iff le_rfl).mpr h]
  rfl

/-- **A string** reaches to the end of the text, or to its closing quote, whatever follows. -/
theorem quotedTail_cases (quote : Char) (cs : List Char) :
    quotedTail quote cs = cs.length ∨ ∃ inner rest, cs = inner ++ quote :: rest ∧
      ∀ more, quotedTail quote (inner ++ quote :: more) = inner.length + 1 := by
  rw [quotedTail_eq]
  cases hreach : Token.stringTail quote cs with
  | none => exact .inl rfl
  | some n =>
    obtain ⟨inner, rest, rfl, rfl⟩ := Token.stringTail_spec hreach
    refine .inr ⟨inner, rest, rfl, fun more => ?_⟩
    rw [List.append_cons, Token.stringTail_append_iff (by simp)] at hreach
    rw [List.append_cons, quotedTail_append (by simpa using hreach)]
    simp

/-- **A comment** reaches to the end of the text, or to its closing mark, whatever follows. -/
theorem commentLength_cases (cs : List Char) :
    commentLength cs = cs.length ∨ ∃ inner rest, cs = inner ++ '/' :: rest ∧
      ∀ more, commentLength (inner ++ '/' :: more) = inner.length + 1 := by
  rw [commentLength]
  cases hreach : Token.commentTail cs with
  | none => exact .inl rfl
  | some n =>
    obtain ⟨hle, inner, htake⟩ := Token.commentTail_spec hreach
    obtain ⟨rest, rfl⟩ : ∃ rest, cs = inner ++ ['*', '/'] ++ rest :=
      ⟨cs.drop n, by rw [← htake, List.take_append_drop]⟩
    have hn : n = (inner ++ ['*', '/']).length := by
      rw [← htake, List.length_take, Nat.min_eq_left hle]
    subst hn
    rw [Token.commentTail_append_iff le_rfl] at hreach
    refine .inr ⟨inner ++ ['*'], rest, by simp, fun more => ?_⟩
    have hcut : inner ++ ['*'] ++ '/' :: more = inner ++ ['*', '/'] ++ more := by simp
    rw [hcut, commentLength, (Token.commentTail_append_iff le_rfl).mpr hreach]
    simp

theorem quotedTail_spell {quote : Char} (hquote : quote.toNat < 128) (cs : List Char) :
    quotedTail quote (spell cs) = bytesOf cs (quotedTail quote cs) := by
  rw [quotedTail_eq, quotedTail_eq, Token.stringTail_spell hquote, getD_map_bytesOf]

theorem commentLength_spell (cs : List Char) :
    commentLength (spell cs) = bytesOf cs (commentLength cs) := by
  rw [commentLength, commentLength, Token.commentTail_spell, getD_map_bytesOf]

namespace Length

/-! ### Addresses -/

theorem lt_of_isQuote {c : Char} (h : isQuote c = true) : c.toNat < 128 := by
  simp only [isQuote, Bool.or_eq_true, beq_iff_eq] at h
  rcases h with rfl | rfl <;> decide

theorem addressLength_nil : addressLength [] = 0 := by
  rw [addressLength]

theorem addressLength_backslash : addressLength ['\\'] = 1 := by
  rw [addressLength]

theorem addressLength_escape (c : Char) (cs : List Char) :
    addressLength ('\\' :: c :: cs) = addressLength cs + 2 := by
  rw [addressLength]

theorem addressLength_cons_of_ne {c : Char} (cs : List Char) (h : c ≠ '\\') :
    addressLength (c :: cs) =
      if isQuote c then addressLength (cs.drop (quotedTail c cs)) + quotedTail c cs + 1
      else if c = ')' then 1
      else addressLength cs + 1 := by
  rw [addressLength.eq_def]
  split
  · contradiction
  · next hcut => simp_all
  · next hcut => simp_all
  · next hcut =>
    obtain ⟨rfl, rfl⟩ := List.cons.inj hcut
    rfl

/-- The marks that close a stretch. -/
def closes (c : Char) : Bool := isQuote c || c == '/' || c == ')'

/-- **An address** reaches to the end of the text, or to its closing parenthesis, whatever
follows. -/
theorem addressLength_cases (cs : List Char) :
    addressLength cs = cs.length ∨ ∃ inner rest, cs = inner ++ ')' :: rest ∧
      ∀ more, addressLength (inner ++ ')' :: more) = inner.length + 1 := by
  fun_induction addressLength cs with
  | case1 => exact .inl rfl
  | case2 => exact .inl rfl
  | case3 c cs ih =>
    rcases ih with ih | ⟨inner, rest, rfl, hclosed⟩
    · exact .inl (congrArg (· + 2) ih)
    · refine .inr ⟨'\\' :: c :: inner, rest, rfl, fun more => ?_⟩
      rw [List.cons_append, List.cons_append, addressLength_escape, hclosed]
      rfl
  | case4 c cs hne₁ hne₂ hquote n ih =>
    have hc : c ≠ '\\' := Token.ne_backslash hne₁ hne₂
    rcases quotedTail_cases c cs with hall | ⟨text, behind, rfl, hstring⟩
    · left
      have hn : n = cs.length := hall
      rw [hn, List.drop_length, addressLength_nil, List.length_cons, Nat.zero_add]
    · have hn : n = text.length + 1 := hstring behind
      have hdrop (more : List Char) : (text ++ c :: more).drop (text.length + 1) = more := by
        rw [← List.drop_drop, List.drop_left, List.drop_one, List.tail_cons]
      rw [hn, hdrop] at ih ⊢
      rcases ih with ih | ⟨inner, rest, rfl, hclosed⟩
      · left
        rw [ih]
        simp
        omega
      · refine .inr ⟨c :: (text ++ c :: inner), rest, by simp, fun more => ?_⟩
        have hcut : c :: (text ++ c :: inner) ++ ')' :: more =
            c :: (text ++ c :: (inner ++ ')' :: more)) := by simp
        rw [hcut, addressLength_cons_of_ne _ hc, if_pos hquote, hstring, hdrop, hclosed]
        simp
        omega
  | case5 cs hne₁ hne₂ hquote =>
    refine .inr ⟨[], cs, rfl, fun more => ?_⟩
    rw [List.nil_append, addressLength_cons_of_ne _ (by decide), if_neg hquote, if_pos rfl]
    rfl
  | case6 c cs hne₁ hne₂ hquote hclose ih =>
    have hc : c ≠ '\\' := Token.ne_backslash hne₁ hne₂
    rcases ih with ih | ⟨inner, rest, rfl, hclosed⟩
    · exact .inl (congrArg (· + 1) ih)
    · refine .inr ⟨c :: inner, rest, rfl, fun more => ?_⟩
      rw [List.cons_append, addressLength_cons_of_ne _ hc, if_neg hquote, if_neg hclose, hclosed]
      rfl

/-! ### Any stretch -/

/-- A text that starts with the name of an address has room for it. -/
theorem exists_of_eqIgnoringCase_take {c : Char} {cs : List Char}
    (h : Text.eqIgnoringCase (c :: cs.take 3) ['u', 'r', 'l', '('] = true) :
    ∃ name rest, cs = name ++ rest ∧ name.length = 3 := by
  have hlength := congrArg List.length (eq_of_beq h)
  rw [List.length_map, List.length_cons, List.length_map] at hlength
  exact ⟨cs.take 3, cs.drop 3, (List.take_append_drop 3 cs).symm, Nat.succ.inj hlength⟩

/-- **A stretch in which nothing is converted** reaches to the end of the text, or to a mark that
closes it, whatever follows. -/
theorem protectedTail?_cases {previous : Option Char} {c : Char} {cs : List Char} {n : Nat}
    (h : protectedTail? previous c cs = some n) :
    n = cs.length ∨ ∃ inner last rest, cs = inner ++ last :: rest ∧ closes last = true ∧
      n = inner.length + 1 ∧ ∀ more, protectedTail? previous c (inner ++ last :: more) = some n := by
  unfold protectedTail? at h
  split at h
  · next hquote =>
    obtain rfl := Option.some.inj h
    rcases quotedTail_cases c cs with hall | ⟨inner, rest, rfl, hclosed⟩
    · exact .inl hall
    · refine .inr ⟨inner, c, rest, rfl, by simp [closes, hquote], hclosed rest, fun more => ?_⟩
      rw [protectedTail?, if_pos hquote, hclosed, hclosed]
  · next hquote =>
    split at h
    · next hcomment =>
      obtain rfl := Option.some.inj h
      obtain ⟨rfl, hstar⟩ := hcomment
      obtain ⟨cs, rfl⟩ := List.head?_eq_some_iff.mp hstar
      rw [List.tail_cons]
      rcases commentLength_cases cs with hall | ⟨inner, rest, rfl, hclosed⟩
      · exact .inl (congrArg (· + 1) hall)
      · refine .inr ⟨'*' :: inner, '/', rest, rfl, rfl, by rw [hclosed]; rfl, fun more => ?_⟩
        rw [protectedTail?, if_neg hquote, if_pos ⟨rfl, rfl⟩, List.cons_append, List.tail_cons,
          hclosed, hclosed]
    · next hcomment =>
      split at h
      · next haddress =>
        obtain rfl := Option.some.inj h
        obtain ⟨name, rest, rfl, hname⟩ := exists_of_eqIgnoringCase_take
          (Bool.and_eq_true_iff.mp haddress).2
        have htake (more : List Char) : (name ++ more).take 3 = name := by rw [← hname, List.take_left]
        have hdrop (more : List Char) : (name ++ more).drop 3 = more := by rw [← hname, List.drop_left]
        rw [hdrop]
        rcases addressLength_cases rest with hall | ⟨inner, rest, rfl, hclosed⟩
        · left
          rw [hall, List.length_append, hname, Nat.add_comm]
        · refine .inr ⟨name ++ inner, ')', rest, by simp, rfl, ?_, fun more => ?_⟩
          · rw [hclosed, List.length_append, hname]
            omega
          · rw [List.append_assoc, protectedTail?, if_neg hquote, htake, hdrop, hclosed, hclosed]
            rw [htake] at haddress
            have hcomment' : ¬(c = '/' ∧ (name ++ (inner ++ ')' :: more)).head? = some '*') := by
              rintro ⟨rfl, -⟩
              simp [Text.eqIgnoringCase] at haddress
            rw [if_neg hcomment', if_pos haddress]
      · cases h

/-! ### Stretches of bytes -/

section High

variable {d : Char} (hd : 128 ≤ d.toNat)

include hd

theorem isQuote_of_high : isQuote d = false := by
  simp (disch := decide) [isQuote, Token.ne_of_high hd]

theorem isNameChar_of_high : isNameChar d = true := by
  simp [isNameChar, hd]

end High

/-- The bytes that continue a character are passed. -/
theorem addressLength_high_append {ds : List Char} (hds : ∀ d ∈ ds, 128 ≤ d.toNat)
    (cs : List Char) : addressLength (ds ++ cs) = addressLength cs + ds.length := by
  induction ds with
  | nil => rfl
  | cons d ds ih =>
    obtain ⟨hd, hds⟩ := List.forall_mem_cons.mp hds
    rw [List.cons_append, addressLength_cons_of_ne _ (Token.ne_of_high hd (by decide)),
      isQuote_of_high hd, if_neg Bool.false_ne_true, if_neg (Token.ne_of_high hd (by decide)), ih hds]
    rfl

/-- **An address of bytes** reaches as far as the address of characters. -/
theorem addressLength_spell (cs : List Char) :
    addressLength (spell cs) = bytesOf cs (addressLength cs) := by
  fun_induction addressLength cs with
  | case1 => exact addressLength_nil
  | case2 => exact addressLength_backslash
  | case3 c cs ih =>
    obtain ⟨first, others, hspelled, hspell⟩ := exists_spelled c
    have hescape := hspelled.map_bytesOf_escape cs (some (addressLength cs))
    rw [spell_cons_of_lt (by decide), hspell, addressLength_escape,
      addressLength_high_append hspelled.high, ih]
    exact Option.some.inj hescape
  | case4 c cs hne₁ hne₂ hquote n ih =>
    have hc : c ≠ '\\' := Token.ne_backslash hne₁ hne₂
    have hlow := lt_of_isQuote hquote
    rw [spell_cons_of_lt hlow, addressLength_cons_of_ne _ hc, if_pos hquote, quotedTail_spell hlow,
      drop_spell, ih, bytesOf_succ, utf8Size_of_lt hlow, Nat.add_comm (addressLength _), bytesOf_add]
    exact congrArg (· + 1) (Nat.add_comm _ _)
  | case5 cs hne₁ hne₂ hquote =>
    rw [spell_cons_of_lt (by decide), addressLength_cons_of_ne _ (by decide), if_neg hquote,
      if_pos rfl]
    rfl
  | case6 c cs hne₁ hne₂ hquote hclose ih =>
    have hc : c ≠ '\\' := Token.ne_backslash hne₁ hne₂
    obtain ⟨first, others, hspelled, hspell⟩ := exists_spelled c
    have hfirst : first ≠ '\\' := fun heq => hc ((hspelled.eq_iff (by decide)).mp heq)
    have hclose' : first ≠ ')' := fun heq => hclose ((hspelled.eq_iff (by decide)).mp heq)
    rw [hspell, addressLength_cons_of_ne _ hfirst, hspelled.test_eq fun d hd => isQuote_of_high hd,
      if_neg hquote, if_neg hclose', addressLength_high_append hspelled.high, ih,
      hspelled.bytesOf_succ]

/-- A character that is no ASCII character has no case. -/
theorem toLower_of_high {d : Char} (hd : 128 ≤ d.toNat) : d.toLower = d := by
  rw [Char.toLower, dif_neg]
  rintro ⟨-, hle⟩
  have hle' : d.toNat ≤ 90 := UInt32.le_iff_toNat_le.mp hle
  omega

/-- **A name of ASCII characters** stands at the start of the bytes if it stands at the start of the
text. -/
theorem eqIgnoringCase_take_spell {word : List Char} (hword : ∀ w ∈ word, w.toLower.toNat < 128)
    (cs : List Char) :
    Text.eqIgnoringCase ((spell cs).take word.length) word =
      Text.eqIgnoringCase (cs.take word.length) word := by
  induction word generalizing cs with
  | nil => rfl
  | cons w word ih =>
    obtain ⟨hw, hword⟩ := List.forall_mem_cons.mp hword
    cases cs with
    | nil => rfl
    | cons c cs =>
      obtain ⟨first, others, hspelled, hspell⟩ := exists_spelled c
      rcases hspelled.start with ⟨rfl, rfl⟩ | ⟨hc, hfirst⟩
      · have hrest := ih hword cs
        rw [hspell, List.nil_append, List.length_cons, List.take_succ_cons, List.take_succ_cons]
        simp only [Text.eqIgnoringCase, List.map_cons, List.cons_beq_cons] at hrest ⊢
        rw [hrest]
      · have hne {d : Char} (hd : 128 ≤ d.toNat) : (d.toLower == w.toLower) = false := by
          rw [toLower_of_high hd]
          exact beq_false_of_ne (Token.ne_of_high hd hw)
        rw [hspell, List.length_cons, List.take_succ_cons, List.take_succ_cons]
        simp only [Text.eqIgnoringCase, List.map_cons, List.cons_beq_cons, hne hc, hne hfirst,
          Bool.false_and]

/-- A name of ASCII characters is made of ASCII characters in any case. -/
theorem lt_of_eqIgnoringCase {text word : List Char} (hword : ∀ w ∈ word, w.toLower.toNat < 128)
    (h : Text.eqIgnoringCase text word = true) : ∀ c ∈ text, c.toNat < 128 := by
  intro c hc
  have hmem : c.toLower ∈ text.map Char.toLower := List.mem_map_of_mem hc
  rw [eq_of_beq h, List.mem_map] at hmem
  obtain ⟨w, hw, hsame⟩ := hmem
  by_contra hhigh
  have hlower := hword w hw
  rw [hsame, toLower_of_high (d := c) (by omega)] at hlower
  exact hhigh hlower

theorem lt_url : ∀ w ∈ ['u', 'r', 'l', '('], w.toLower.toNat < 128 := by
  simp only [List.forall_mem_cons]
  exact ⟨by decide, by decide, by decide, by decide, by simp⟩

/-- Stretches start with ASCII characters. -/
theorem protectedTail?_of_high {d : Char} (hd : 128 ≤ d.toNat) (previous : Option Char)
    (cs : List Char) : protectedTail? previous d cs = none := by
  have hname : Text.eqIgnoringCase (d :: cs.take 3) ['u', 'r', 'l', '('] = false := by
    simp [Text.eqIgnoringCase, toLower_of_high hd, Token.ne_of_high hd]
  rw [protectedTail?, isQuote_of_high hd, if_neg Bool.false_ne_true,
    if_neg fun hcomment => Token.ne_of_high hd (by decide) hcomment.1, hname, Bool.and_false,
    if_neg Bool.false_ne_true]

/-- **Bytes and characters give the same stretches.** -/
theorem protectedTail?_spell {previous previous' : Option Char}
    (hprevious : previous'.any isNameChar = previous.any isNameChar) {c first : Char}
    {others : List Char} (hspelled : Spelled c first others) (cs : List Char) :
    protectedTail? previous' first (others ++ spell cs) =
      (protectedTail? previous c cs).map (bytesOf cs) := by
  rcases hspelled.start with ⟨rfl, rfl⟩ | ⟨hc, hfirst⟩
  · have hcomment : (first = '/' ∧ (spell cs).head? = some '*') ↔
        first = '/' ∧ cs.head? = some '*' := and_congr_right' (head?_spell (by decide) cs)
    have hname : Text.eqIgnoringCase (first :: (spell cs).take 3) ['u', 'r', 'l', '('] =
        Text.eqIgnoringCase (first :: cs.take 3) ['u', 'r', 'l', '('] := by
      have hrest := eqIgnoringCase_take_spell (List.forall_mem_cons.mp lt_url).2 cs
      simp only [Text.eqIgnoringCase, List.map_cons, List.cons_beq_cons, List.length_cons,
        List.length_nil] at hrest ⊢
      rw [hrest]
    rw [List.nil_append, protectedTail?, protectedTail?, hname, hprevious]
    simp only [hcomment]
    split
    · next hquote =>
      rw [quotedTail_spell (lt_of_isQuote hquote)]
      rfl
    · split
      · next hmark =>
        obtain ⟨cs, rfl⟩ := List.head?_eq_some_iff.mp hmark.2
        rw [spell_cons_of_lt (by decide), List.tail_cons, List.tail_cons, commentLength_spell]
        exact congrArg some (bytesOf_succ '*' cs _).symm
      · split
        · next haddress =>
          have hlow := lt_of_eqIgnoringCase lt_url (Bool.and_eq_true_iff.mp haddress).2
          obtain ⟨name, rest, rfl, hthree⟩ := exists_of_eqIgnoringCase_take
            (Bool.and_eq_true_iff.mp haddress).2
          rw [show (name ++ rest).take 3 = name by rw [← hthree, List.take_left]] at hlow
          have hself := spell_of_forall (List.forall_mem_cons.mp hlow).2
          have hsize : bytesOf (name ++ rest) 3 = 3 := by
            rw [← hthree, bytesOf, List.take_left, ← length_spell, hself]
          have hdrop := drop_spell (name ++ rest) 3
          rw [hsize] at hdrop
          rw [hdrop, addressLength_spell, Option.map_some, Nat.add_comm _ 3, Nat.add_comm _ 3,
            bytesOf_add, hsize]
        · rfl
  · rw [protectedTail?_of_high hc, protectedTail?_of_high hfirst]
    rfl

end Length

end Value

end LosslessCss
