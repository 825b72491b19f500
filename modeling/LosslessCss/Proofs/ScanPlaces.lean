import LosslessCss.Proofs.LengthScan

/-!
# Where a scan for lengths stands

A scan for lengths skips strings, comments and addresses, and no length that it finds reaches into
what it skips (`Value.Length.Found.disjoint_of_skipped`).  To know what it skips one follows it
piece by piece.  Between two pieces it stands outside of all stretches, or inside an address that
goes on (`Value.Length.Outside`, `Value.Length.Inside`), and each piece says where it stands next.

Only the start of an address is seen late.  The scan takes up an address at the `u` of its name,
while a reader of pieces knows of it when the parenthesis comes.  So the name of an address may
stand behind a scan that is outside.  Where a length stops makes no difference: no stretch starts
with a character that a number could go on with (`Value.Length.scan_suffix_of_gap`).

## Main Definitions

* `Value.Length.Reaches`, `Value.Length.Covers` : what a scan gets to, and what it skips
* `Value.Length.Outside`, `Value.Length.Inside` : the two places where it can stand
* `Value.Length.endsInUrl`, `Value.Length.keepsAddress` : what starts an address, and what does not
  end one

## Main Statements

* `Value.Length.Found.disjoint_of_skipped`
* `Value.Length.Outside.skip`, `Value.Length.Outside.pass`, `Value.Length.Outside.enter`,
  `Value.Length.Inside.pass`, `Value.Length.Inside.close` : the scan behind one piece
-/

namespace LosslessCss

open String (utf8Len utf8Len_append utf8Len_cons)
open Text

namespace Value.Length

/-! ### What a scan skips stays -/

section Skipped

variable {text : List Char} {place start stop : Nat}

/-- **A stretch that a scan skips** starts there, and reaches as far as it goes. -/
theorem exists_of_skipped_mem_scan (h : .skipped start stop ∈ scan text place) :
    ∃ c cs n, text.drop start = c :: cs ∧
      protectedTail? (text.take start).getLast? c cs = some n ∧ stop = start + n + 1 := by
  fun_induction scan text place with
  | case1 place hplace n hprotected ih =>
    rcases List.mem_cons.mp h with heq | h
    · cases heq
      exact ⟨_, _, n, List.drop_eq_getElem_cons hplace, hprotected, rfl⟩
    · exact ih h
  | case2 place hplace hprotected found hfound hlt ih =>
    rcases List.mem_cons.mp h with heq | h
    · cases heq
    · exact ih h
  | case3 place hplace hprotected hfound ih => exact ih h
  | case4 => cases h

/-- A sign closes nothing. -/
theorem not_closes_of_sign {c : Char} (hc : c = '+' ∨ c = '-') : closes c = false := by
  rcases hc with rfl | rfl <;> rfl

/-- The sign of a number stands right in front of it. -/
theorem exists_sign_of_found? {found : Found} (h : found? text place = some found) :
    found.start = place ∨ ∃ front c, (c = '+' ∨ c = '-') ∧ text.take place = front ++ [c] ∧
      found.start + 1 = place := by
  obtain ⟨p, n, sign, hunsigned, hsign, -⟩ := exists_of_found? h
  have hstart : found.start = place - sign.toList.length := by
    unfold found? at h
    rw [hunsigned, hsign] at h
    exact (congrArg Found.start (Option.some.inj h)).symm
  cases sign with
  | none => exact .inl hstart
  | some c =>
    right
    rcases List.eq_nil_or_concat' (text.take place) with hnil | ⟨front, d, hfront⟩
    · rw [hnil] at hsign
      cases hsign
    · rw [hfront, List.reverse_append, List.reverse_singleton, List.singleton_append,
        signBehind?] at hsign
      split at hsign
      · next hd =>
        refine ⟨front, d, hd, hfront, ?_⟩
        have hlength := congrArg List.length hfront
        rw [List.length_take, List.length_append, List.length_singleton] at hlength
        rw [hstart, Option.toList_some, List.length_singleton]
        omega
      · split at hsign <;> cases hsign

/-- The characters of a length, from its number on, are those of a name. -/
theorem isNameChar_of_found? {found : Found} (h : found? text place = some found) {i : Nat}
    (hplace : place ≤ i) (hstop : i < found.stop) :
    ∃ c ∈ (text.drop i).head?, isNameChar c = true := by
  obtain ⟨p, n, sign, hunsigned, -, hn⟩ := exists_of_found? h
  obtain ⟨number, rest, hdrop, rfl, hnumeric⟩ := exists_numeric_of_unsigned? hunsigned
  obtain ⟨k, rfl⟩ := Nat.exists_eq_add_of_le hplace
  have hk : k < number.length := by omega
  rw [← List.drop_drop, hdrop, List.drop_append_of_le_length hk.le, List.drop_eq_getElem_cons hk]
  exact ⟨_, rfl, isNameChar_of_isNumeric (hnumeric _ (List.getElem_mem hk))⟩

/-- **No stretch starts inside a number**: one character of a name would stand in front of it, and
it would start with another. -/
theorem protectedTail?_inside {found : Found} (h : found? text place = some found)
    (hplace : place < start) (hstop : start < found.stop) {c : Char} {cs : List Char}
    (hdrop : text.drop start = c :: cs) :
    protectedTail? (text.take start).getLast? c cs = none := by
  obtain ⟨d, hd, hname⟩ := isNameChar_of_found? h hplace.le hstop
  rw [hdrop, List.head?_cons, Option.mem_some] at hd
  subst hd
  have hsucc : start - 1 + 1 = start := by omega
  obtain ⟨b, hb, hbehind⟩ := isNameChar_of_found? h (i := start - 1) (by omega) (by omega)
  obtain ⟨bs, hbs⟩ := List.head?_eq_some_iff.mp hb
  have htake : text.take start = text.take (start - 1) ++ [b] := by
    rw [← hsucc, List.take_add, hsucc, hbs]
    rfl
  refine protectedTail?_of_name hname ?_ cs
  rw [htake, List.getLast?_concat]
  exact hbehind

/-- **A length right behind a stretch** has no sign: it would be the last character of the stretch,
which closes it. -/
theorem start_of_found?_behind {found : Found} {c : Char} {cs : List Char} {n : Nat}
    (hdrop : text.drop start = c :: cs)
    (hprotected : protectedTail? (text.take start).getLast? c cs = some n)
    (h : found? text (start + n + 1) = some found) : found.start = start + n + 1 := by
  rcases exists_sign_of_found? h with heq | ⟨front, d, hd, htake, -⟩
  · exact heq
  obtain ⟨p, m, sign, hunsigned, -⟩ := exists_of_found? h
  rcases protectedTail?_cases hprotected with rfl | ⟨inner, last, rest, rfl, hcloses, rfl, -⟩
  · have hend : text.drop (start + cs.length + 1) = [] := by
      rw [Nat.add_assoc, ← List.drop_drop, hdrop]
      simp
    rw [hend] at hunsigned
    cases hunsigned
  · have hlast : text.take (start + (inner.length + 1) + 1) =
        text.take start ++ c :: inner ++ [last] := by
      rw [Nat.add_assoc, List.take_add, hdrop, List.take_succ_cons, List.append_cons inner,
        List.take_left' (by simp)]
      simp
    obtain rfl : last = d :=
      List.singleton_inj.mp (List.append_inj' (hlast.symm.trans htake) rfl).2
    rw [not_closes_of_sign hd] at hcloses
    cases hcloses

/-- **No length that is found reaches into a stretch that is skipped.** -/
theorem Found.disjoint_of_skipped {found : Found} (hfound : found ∈ lengths (scan text place))
    (hskipped : .skipped start stop ∈ scan text place) :
    found.stop ≤ start ∨ stop ≤ found.start := by
  obtain ⟨i, -, hi, hout⟩ := mem_scan_iff.mp (mem_lengths.mp hfound)
  obtain ⟨c, cs, n, hdrop, hprotected, rfl⟩ := exists_of_skipped_mem_scan hskipped
  by_cases hstart : start ≤ i
  · right
    have hstop : start + n + 1 ≤ i := by
      by_contra hlt
      exact hout _ _ hskipped ⟨hstart, by omega⟩
    by_cases hnext : i = start + n + 1
    · subst hnext
      exact (start_of_found?_behind hdrop hprotected hi).ge
    · rcases exists_sign_of_found? hi with heq | ⟨-, -, -, -, heq⟩ <;> omega
  · left
    by_contra hlt
    rw [protectedTail?_inside hi (by omega) (by omega) hdrop] at hprotected
    cases hprotected

end Skipped

/-! ### Names of addresses -/

/-- **The text ends in the name `url`**, in any case, and the name starts there. -/
def endsInUrl (front : List Char) : Bool :=
  !(front.take (front.length - 3)).getLast?.any isNameChar &&
    Text.eqIgnoringCase (front.drop (front.length - 3)) ['u', 'r', 'l']

section Url

variable {front name rest : List Char}

theorem length_of_url (h : Text.eqIgnoringCase name ['u', 'r', 'l'] = true) : name.length = 3 := by
  have hlength := congrArg List.length (eq_of_beq h)
  rwa [List.length_map, List.length_map] at hlength

theorem endsInUrl_append (h : Text.eqIgnoringCase name ['u', 'r', 'l'] = true) :
    endsInUrl (front ++ name) = !front.getLast?.any isNameChar := by
  have hlength : (front ++ name).length - 3 = front.length := by
    rw [List.length_append, length_of_url h, Nat.add_sub_cancel]
  rw [endsInUrl, hlength, List.take_left, List.drop_left, h, Bool.and_true]

theorem exists_of_endsInUrl (h : endsInUrl front = true) :
    ∃ before name, front = before ++ name ∧ before.getLast?.any isNameChar = false ∧
      Text.eqIgnoringCase name ['u', 'r', 'l'] = true := by
  obtain ⟨hbefore, hname⟩ := Bool.and_eq_true_iff.mp h
  exact ⟨_, _, (List.take_append_drop _ _).symm, by simpa using hbefore, hname⟩

/-- **An address starts** with the name `url` and a parenthesis. -/
theorem eqIgnoringCase_url_iff {c : Char} {cs : List Char} :
    Text.eqIgnoringCase (c :: cs.take 3) ['u', 'r', 'l', '('] = true ↔
      ∃ name rest, cs = name ++ '(' :: rest ∧
        Text.eqIgnoringCase (c :: name) ['u', 'r', 'l'] = true := by
  constructor
  · intro h
    obtain ⟨name, rest, rfl, hname⟩ := exists_of_eqIgnoringCase_take h
    rw [List.take_left' hname] at h
    obtain ⟨r, l, p, rfl⟩ := List.length_eq_three.mp hname
    simp only [Text.eqIgnoringCase, List.map_cons, List.map_nil, beq_iff_eq, List.cons.injEq] at h
    obtain ⟨hu, hr, hl, hp, -⟩ := h
    obtain rfl := Text.eq_of_toLower hp (by decide)
    exact ⟨[r, l], rest, rfl, by simp [Text.eqIgnoringCase, hu, hr, hl]⟩
  · rintro ⟨name, rest, rfl, hname⟩
    obtain ⟨r, l, rfl⟩ := List.length_eq_two.mp (Nat.succ.inj (length_of_url hname))
    simp only [Text.eqIgnoringCase, List.map_cons, List.map_nil, beq_iff_eq] at hname
    simp [Text.eqIgnoringCase] at hname ⊢
    exact hname

/-- A letter of the name `url` is none of the marks that close a stretch. -/
theorem not_closes_of_mem_url (h : Text.eqIgnoringCase name ['u', 'r', 'l'] = true) {c : Char}
    (hc : c ∈ name) : closes c = false := by
  have hmem : c.toLower ∈ name.map Char.toLower := List.mem_map_of_mem hc
  rw [eq_of_beq h] at hmem
  by_contra hcloses
  simp only [closes, isQuote, Bool.not_eq_false, Bool.or_eq_true, beq_iff_eq] at hcloses
  rcases hcloses with ((rfl | rfl) | rfl) | rfl <;> simp at hmem

/-- The first letter of the name `url` may stand in any name, and in no number. -/
theorem isNameChar_of_url {c : Char} (h : Text.eqIgnoringCase (c :: name) ['u', 'r', 'l'] = true) :
    isNameChar c = true ∧ isNumeric c = false := by
  have hlower : c.toLower = 'u' := by
    simp only [Text.eqIgnoringCase, List.map_cons, beq_iff_eq, List.cons.injEq] at h
    exact h.1
  refine ⟨isNameChar_of_isPlain (isPlain_of_toLower (hlower ▸ rfl)), ?_⟩
  by_contra hnumeric
  simp only [isNumeric, hlower, Bool.not_eq_false, Bool.or_eq_true, or_assoc] at hnumeric
  have hlead : isLead c = true := by
    rcases hnumeric with hdigit | hpoint | h | h
    · exact isLead_of_isDigit hdigit
    · rw [beq_iff_eq.mp hpoint]
      rfl
    · cases h
    · cases h
  rw [eqIgnoringCase_of_isLead List.mem_cons_self hlead isLead_url] at h
  cases h

/-- A stretch that starts with the name `url` is an address, and no name is in front of it. -/
theorem protectedTail?_url (previous : Option Char) {c : Char} {cs : List Char}
    (h : Text.eqIgnoringCase (c :: name) ['u', 'r', 'l'] = true) (hcs : cs = name ++ '(' :: rest) :
    protectedTail? previous c cs =
      if previous.any isNameChar then none else some (addressLength rest + 3) := by
  have hdrop : cs.drop 3 = rest := by
    have hlength : name.length = 2 := Nat.succ.inj (length_of_url h)
    rw [hcs, List.append_cons, List.drop_left' (by simp [hlength])]
  rw [protectedTail?_of_isNameChar (isNameChar_of_url h).1,
    eqIgnoringCase_url_iff.mpr ⟨name, rest, hcs, h⟩, Bool.and_true, hdrop]
  cases previous.any isNameChar <;> rfl

end Url

/-! ### Where a scan is -/

/-- **The scan of a text gets to the place behind `front`**: from there on it goes as if it had
started there. -/
def Reaches (text front : List Char) : Prop :=
  scan (spell text) (utf8Len front) <:+ scan (spell text) 0

/-- **A stretch that the scan skips** covers the text between `front` and what follows `part`. -/
def Covers (text front part : List Char) : Prop :=
  ∃ start stop, .skipped start stop ∈ scan (spell text) 0 ∧ start ≤ utf8Len front ∧
    utf8Len (front ++ part) ≤ stop

section Places

variable {front rest : List Char}

theorem reaches_nil (text : List Char) : Reaches text [] := List.suffix_rfl

/-- A number ends in front of what cannot go on with it. -/
theorem size_le_of_stop {gap : List Char} (hrest : ∀ c ∈ rest.head?, isNumeric c = false)
    {p : Pixels} {n : Nat} (h : unsigned? (gap ++ rest) = some (p, n)) : n ≤ gap.length := by
  obtain ⟨number, behind, hcut, rfl, hnumeric⟩ := exists_numeric_of_unsigned? h
  rcases List.append_eq_append_iff.mp hcut with ⟨more, rfl, rfl⟩ | ⟨more, rfl, -⟩
  · cases more with
    | nil => simp
    | cons d more =>
      have hd := hnumeric d (by simp)
      rw [hrest d rfl] at hd
      cases hd
  · simp

/-- **A scan goes on** to the end of a text in which no stretch starts, unless a number goes on
there. -/
theorem scan_suffix_of_gap {gap : List Char}
    (hgap : ∀ a c b, gap = a ++ c :: b →
      protectedTail? (front ++ a).getLast? c (b ++ rest) = none)
    (hrest : ∀ c ∈ rest.head?, isNumeric c = false) :
    scan (spell (front ++ (gap ++ rest))) (utf8Len (front ++ gap)) <:+
      scan (spell (front ++ (gap ++ rest))) (utf8Len front) := by
  generalize hsize : gap.length = size
  induction size using Nat.strong_induction_on generalizing front gap with
  | _ size ih =>
    subst hsize
    cases gap with
    | nil =>
      rw [List.append_nil]
    | cons c gap =>
      have hfirst := hgap [] c gap rfl
      rw [List.append_nil] at hfirst
      -- The scan goes on behind a part of the gap.
      have hnext {x y : List Char} (hcut : c :: gap = x ++ y) (hx : x ≠ []) :
          scan (spell (front ++ (c :: gap ++ rest))) (utf8Len (front ++ c :: gap)) <:+
            scan (spell (front ++ (c :: gap ++ rest))) (utf8Len (front ++ x)) := by
        have hlt : y.length < (c :: gap).length := by
          have := List.length_pos_iff.mpr hx
          rw [hcut, List.length_append]
          omega
        have hgap' (a : List Char) (d : Char) (b : List Char) (hy : y = a ++ d :: b) :
            protectedTail? (front ++ x ++ a).getLast? d (b ++ rest) = none := by
          rw [List.append_assoc]
          exact hgap (x ++ a) d b (by rw [hcut, hy, List.append_assoc])
        have hrec := ih y.length hlt hgap' rfl
        rw [hcut]
        simpa only [List.append_assoc] using hrec
      cases hunsigned : unsigned? (c :: gap ++ rest) with
      | none =>
        rw [List.cons_append, scan_spell_of_none hfirst (found?_eq_none (.inl hunsigned))]
        exact hnext (x := [c]) rfl (by simp)
      | some number =>
        obtain ⟨p, n⟩ := number
        cases hsign : signBehind? front.reverse with
        | none =>
          rw [List.cons_append, scan_spell_of_none hfirst (found?_eq_none (.inr hsign))]
          exact hnext (x := [c]) rfl (by simp)
        | some sign =>
          have hle := size_le_of_stop hrest hunsigned
          rw [scan_spell_of_number hunsigned hsign, List.take_append_of_le_length hle]
          refine (hnext (List.take_append_drop n _).symm ?_).trans (List.suffix_cons _ _)
          have hpos := pos_of_unsigned? hunsigned
          intro hnil
          have hlength := congrArg List.length hnil
          rw [List.length_take, List.length_nil] at hlength
          simp at hlength
          omega

end Places

/-! ### One token -/

/-- **The scan stands outside**: no stretch that it skips goes on behind `front`.  Only the name of
an address may stand there whose parenthesis comes next. -/
inductive Outside (front rest : List Char) : Prop
  | intro {start gap : List Char} (hfront : front = start ++ gap)
      (hreaches : Reaches (front ++ rest) start) (hcloses : ∀ c ∈ start.getLast?, closes c = true)
      (hgap : ∀ a c b, gap = a ++ c :: b →
      protectedTail? (start ++ a).getLast? c (b ++ rest) ≠ none →
        Text.eqIgnoringCase (c :: b) ['u', 'r', 'l'] = true ∧ rest.head? = some '(')

/-- **The scan stands inside an address**, which goes on behind `front`. -/
inductive Inside (front rest : List Char) : Prop
  | intro {start : Nat}
      (hskipped : .skipped start (utf8Len (front ++ rest.take (addressLength rest))) ∈
        scan (spell (front ++ rest)) 0)
      (hstart : start ≤ utf8Len front)
      (hreaches : Reaches (front ++ rest) (front ++ rest.take (addressLength rest)))

/-- **A text inside an address that does not end it**: no quote and no closing parenthesis, unless
they are escaped. -/
def keepsAddress : List Char → Bool
  | [] => true
  | ['\\'] => false
  | '\\' :: _ :: cs => keepsAddress cs
  | c :: cs => !isQuote c && c != ')' && keepsAddress cs

section Steps

variable {front rest part : List Char}

theorem addressLength_append (h : keepsAddress part = true) (rest : List Char) :
    addressLength (part ++ rest) = part.length + addressLength rest := by
  fun_induction keepsAddress part with
  | case1 => simp
  | case2 => cases h
  | case3 c cs ih =>
    rw [List.cons_append, List.cons_append, addressLength_escape, ih h, List.length_cons,
      List.length_cons]
    omega
  | case4 c cs hne₁ hne₂ ih =>
    have hc : c ≠ '\\' := Token.ne_backslash hne₁ hne₂
    simp only [Bool.and_eq_true, Bool.not_eq_true', bne_iff_ne] at h
    obtain ⟨⟨hquote, hclose⟩, hcs⟩ := h
    rw [List.cons_append, addressLength_cons_of_ne _ hc, if_neg (by simp [hquote]), if_neg hclose,
      ih hcs, List.length_cons]
    omega

/-- A string is passed as a whole. -/
theorem addressLength_string {quote : Char} (hquote : isQuote quote = true)
    (h : Token.stringTail quote part = some part.length) (rest : List Char) :
    addressLength (quote :: part ++ rest) = (quote :: part).length + addressLength rest := by
  have hne : quote ≠ '\\' := by
    rintro rfl
    cases hquote
  rw [List.cons_append, addressLength_cons_of_ne _ hne, if_pos hquote, quotedTail_append h,
    List.drop_left, List.length_cons]
  omega

theorem outside_nil (rest : List Char) : Outside [] rest :=
  .intro rfl (reaches_nil _) (by simp) (fun a c b hnil => by cases a <;> cases hnil)

/-- **A stretch has ended** behind `front`. -/
theorem outside_of_reaches (h : Reaches (front ++ rest) front)
    (hcloses : ∀ c ∈ front.getLast?, closes c = true) : Outside front rest :=
  .intro (List.append_nil front).symm h hcloses fun a c b hnil _ => by cases a <;> cases hnil

/-- The scan gets to where it stands, unless an address or a number goes on. -/
theorem Outside.reaches (h : Outside front rest)
    (hrest : ∀ c ∈ rest.head?, isNumeric c = false ∧ c ≠ '(') : Reaches (front ++ rest) front := by
  obtain ⟨rfl, hreaches, -, hgap⟩ := h
  rename_i start gap
  refine List.IsSuffix.trans ?_ hreaches
  rw [List.append_assoc]
  refine scan_suffix_of_gap (fun a c b hcut => ?_) fun c hc => (hrest c hc).1
  by_contra hsome
  exact (hrest '(' (hgap a c b hcut hsome).2).2 rfl

/-- **Outside, a token that is skipped** is skipped as a whole. -/
theorem Outside.skip {c : Char} (h : Outside front (c :: part ++ rest))
    (hprotected : protectedTail? front.getLast? c (part ++ rest) = some part.length)
    (hc : isNumeric c = false ∧ c ≠ '(') (hlast : ∀ d ∈ (c :: part).getLast?, closes d = true) :
    Covers (front ++ (c :: part ++ rest)) front (c :: part) ∧
      Outside (front ++ c :: part) rest := by
  have hreaches := h.reaches (by simpa using hc)
  have hscan := scan_spell_of_protected hprotected
  rw [List.take_left] at hscan
  rw [Reaches, List.cons_append, hscan] at hreaches
  refine ⟨⟨_, _, hreaches.mem List.mem_cons_self, le_rfl, le_rfl⟩, outside_of_reaches ?_ ?_⟩
  · have htail := (List.suffix_cons _ _).trans hreaches
    rwa [Reaches, List.append_assoc, List.cons_append]
  · intro d hd
    rw [List.getLast?_append_of_ne_nil _ (by simp)] at hd
    exact hlast d hd

/-- **Outside, a token that is passed** leaves the scan outside: a parenthesis that starts no
address, and any other token in which nothing starts. -/
theorem Outside.pass (h : Outside front (part ++ rest))
    (hhead : (part ++ rest).head? = some '(' → endsInUrl front = false)
    (hpart : ∀ a c b, part = a ++ c :: b →
      protectedTail? (front ++ a).getLast? c (b ++ rest) ≠ none →
        Text.eqIgnoringCase (c :: b) ['u', 'r', 'l'] = true ∧ rest.head? = some '(') :
    Outside (front ++ part) rest := by
  obtain ⟨rfl, hreaches, hcloses, hgap⟩ := h
  rename_i start gap
  refine .intro (List.append_assoc ..) (by rwa [List.append_assoc _ part]) hcloses
    fun a c b hcut hsome => ?_
  rcases List.append_eq_append_iff.mp hcut with ⟨a', rfl, hpart'⟩ | ⟨b', rfl, hb⟩
  · refine hpart a' c b hpart' ?_
    rwa [List.append_assoc]
  · cases b' with
    | nil =>
      refine hpart [] c b hb.symm ?_
      simpa using hsome
    | cons d b' =>
      obtain ⟨rfl, rfl⟩ := List.cons.inj hb
      replace hsome : protectedTail? (start ++ a).getLast? c (b' ++ (part ++ rest)) ≠ none := by
        simpa using hsome
      -- A stretch that starts in front of the token is an address, and the token its parenthesis.
      obtain ⟨hname, hopen⟩ := hgap a c b' rfl hsome
      obtain ⟨more, hmore⟩ := List.head?_eq_some_iff.mp hopen
      have hurl := hhead hopen
      rw [← List.append_assoc, endsInUrl_append hname, Bool.not_eq_false'] at hurl
      rw [protectedTail?_url _ hname (congrArg (b' ++ ·) hmore), if_pos hurl] at hsome
      contradiction

/-- **In front of the name of an address** whose parenthesis comes next the scan is outside as well:
the name lies behind the last stretch, whose end is no letter of it. -/
theorem Outside.of_url {name : List Char} (h : Outside (front ++ name) ('(' :: rest))
    (hname : Text.eqIgnoringCase name ['u', 'r', 'l'] = true) :
    Outside front (name ++ '(' :: rest) := by
  obtain ⟨hcut, hreaches, hcloses, hgap⟩ := h
  rename_i start gap
  obtain ⟨gap, rfl⟩ : ∃ gap', gap = gap' ++ name := by
    rcases List.append_eq_append_iff.mp hcut with ⟨lost, rfl, rfl⟩ | ⟨gap', rfl, rfl⟩
    · rcases List.eq_nil_or_concat' lost with rfl | ⟨lost, c, rfl⟩
      · exact ⟨[], rfl⟩
      · have hclose := hcloses c (by simp)
        rw [not_closes_of_mem_url hname (c := c) (by simp)] at hclose
        cases hclose
    · exact ⟨gap', rfl⟩
  obtain rfl : front = start ++ gap := by
    rw [← List.append_assoc] at hcut
    exact List.append_cancel_right hcut
  refine .intro rfl (by simpa using hreaches) hcloses fun a c b hcut' hsome => ?_
  have hlong := length_of_url (hgap a c (b ++ name) (by rw [hcut']; simp) (by simpa using hsome)).1
  rw [List.length_cons, List.length_append, length_of_url hname] at hlong
  omega

/-- **Outside, a parenthesis** behind the name of an address starts one. -/
theorem Outside.enter (h : Outside front ('(' :: rest)) (hurl : endsInUrl front = true) :
    Inside (front ++ ['(']) rest := by
  obtain ⟨before, name, rfl, hbefore, hname⟩ := exists_of_endsInUrl hurl
  have hout := h.of_url hname
  obtain ⟨c, tail, rfl⟩ := List.exists_cons_of_ne_nil (show name ≠ [] by rintro rfl; cases hname)
  obtain ⟨hnameChar, hnumeric⟩ := isNameChar_of_url hname
  have hreaches := hout.reaches (by
    rintro d ⟨⟩
    refine ⟨hnumeric, ?_⟩
    rintro rfl
    cases hnameChar)
  have hprotected := protectedTail?_url before.getLast? hname (rfl : tail ++ '(' :: rest = _)
  rw [hbefore, if_neg Bool.false_ne_true] at hprotected
  rw [Reaches, List.cons_append, scan_spell_of_protected hprotected] at hreaches
  have htext : before ++ c :: (tail ++ '(' :: rest) = before ++ c :: tail ++ ['('] ++ rest := by
    simp
  have hstop : before ++ c :: (tail ++ '(' :: rest).take (addressLength rest + 3) =
      before ++ c :: tail ++ ['('] ++ rest.take (addressLength rest) := by
    have hlength : (tail ++ ['(']).length = 3 := by
      rw [List.length_append, Nat.succ.inj (length_of_url hname), List.length_singleton]
    rw [List.append_cons tail, Nat.add_comm, ← hlength, List.take_length_add_append]
    simp
  rw [htext, hstop] at hreaches
  refine .intro (hreaches.mem List.mem_cons_self) ?_ ((List.suffix_cons _ _).trans hreaches)
  rw [List.append_assoc before, utf8Len_append before]
  exact Nat.le_add_right _ _

/-- **Inside, a token that does not end the address** is skipped with it. -/
theorem Inside.pass (h : Inside front (part ++ rest))
    (hpart : addressLength (part ++ rest) = part.length + addressLength rest) :
    Covers (front ++ (part ++ rest)) front part ∧ Inside (front ++ part) rest := by
  obtain ⟨hskipped, hstart, hreaches⟩ := h
  have hstop : front ++ (part ++ rest).take (addressLength (part ++ rest)) =
      front ++ part ++ rest.take (addressLength rest) := by
    rw [hpart, List.take_length_add_append, List.append_assoc]
  rw [hstop] at hskipped hreaches
  refine ⟨⟨_, _, hskipped, hstart, ?_⟩, .intro (by rwa [List.append_assoc front]) ?_
    (by rwa [List.append_assoc front])⟩
  · rw [utf8Len_append (_ ++ _)]
    exact Nat.le_add_right _ _
  · rw [utf8Len_append]
    omega

/-- **Inside, a closing parenthesis** ends the address. -/
theorem Inside.close (h : Inside front (')' :: rest)) : Outside (front ++ [')']) rest := by
  obtain ⟨-, -, hreaches⟩ := h
  have hone : addressLength (')' :: rest) = 1 := by
    rw [addressLength_cons_of_ne _ (by decide), if_neg (by decide), if_pos rfl]
  rw [hone, List.take_succ_cons, List.take_zero] at hreaches
  refine outside_of_reaches (by simpa using hreaches) ?_
  rw [List.getLast?_concat]
  rintro c ⟨⟩
  rfl

end Steps

end Value.Length

end LosslessCss
