import LosslessCss.Proofs.Idempotence

/-!
# Units and the separators between them

What a compact text is can be said without the scan that writes it.  A text is a sequence of units
with separators in front of each of them and behind the last one (`Compact.Reading`): a unit is an
escaped character, a quoted string or another single character, and what separates is white space
and comments.  Each text has exactly one reading (`Compact.reading_iff`).

Compaction keeps the units and replaces what separates them (`Compact.spaced`), and the text that
comes out is read as these units again (`Compact.Reading.compact`).  Nothing new comes about where a
separator is left out, because tight punctuation is not part of the marks of a comment.

Whether a separator goes is decided by the characters next to it.  In front of a unit that is the
same as to ask for an unescaped mark, as an escaped one starts with a backslash.  Behind a unit it
is not: an escaped mark ends like an unescaped one (`Compact.Reading.exists_joint`).

## Main Definitions

* `Compact.Piece`, `Compact.Reading` : a text as units with separators between them
* `Compact.spaced` : pieces as compaction separates them

## Main Statements

* `Compact.reading_iff` : each text has exactly one reading
* `reading_compact` : compaction keeps the units, and what it writes between them
* `space_left_iff` : where a space is left
* `exists_space_lost` : a space that an escaped mark takes away
-/

namespace LosslessCss

namespace Token

/-- A comment without an end has no closing mark. -/
theorem commentTail_eq_none_iff {cs : List Char} :
    commentTail cs = none ↔ ¬['*', '/'] <:+: cs := by
  induction cs with
  | nil => simp [commentTail]
  | cons c cs ih =>
    have hprefix : ['*', '/'] <+: c :: cs ↔ c = '*' ∧ cs.head? = some '/' := by
      cases cs <;> simp [eq_comm]
    rw [commentTail_cons, List.infix_cons_iff, hprefix]
    split
    · next hclose => simp [hclose]
    · next hclose => simp [hclose, ih]

/-- A comment ends with the first closing mark. -/
theorem commentTail_append_of_not_infix {inner : List Char} (hinner : ¬['*', '/'] <:+: inner)
    (cs : List Char) : commentTail (inner ++ '*' :: '/' :: cs) = some (inner.length + 2) := by
  induction inner with
  | nil => rfl
  | cons c inner ih =>
    have hclose : ¬(c = '*' ∧ (inner ++ '*' :: '/' :: cs).head? = some '/') := by
      rintro ⟨rfl, hhead⟩
      cases inner with
      | nil => cases hhead
      | cons d inner =>
        obtain rfl : d = '/' := by simpa using hhead
        exact hinner ⟨[], inner, rfl⟩
    rw [List.cons_append, commentTail_cons, if_neg hclose,
      ih fun h => hinner (List.infix_cons h), Option.map_some, List.length_cons]

/-- What a comment holds has no closing mark. -/
theorem commentTail_eq_some {cs : List Char} {n : Nat} (h : commentTail cs = some n) :
    ∃ inner rest, cs = inner ++ '*' :: '/' :: rest ∧ n = inner.length + 2 ∧
      ¬['*', '/'] <:+: inner := by
  induction cs generalizing n with
  | nil => cases h
  | cons c cs ih =>
    rw [commentTail_cons] at h
    split at h
    · next hclose =>
      obtain ⟨rfl, hhead⟩ := hclose
      obtain ⟨rest, rfl⟩ := List.head?_eq_some_iff.mp hhead
      obtain rfl : 2 = n := by simpa using h
      exact ⟨[], rest, rfl, rfl, by simp⟩
    · next hclose =>
      obtain ⟨m, hm, rfl⟩ := Option.map_eq_some_iff.mp h
      obtain ⟨inner, rest, rfl, rfl, hinner⟩ := ih hm
      refine ⟨c :: inner, rest, rfl, rfl, fun hinfix => ?_⟩
      rcases List.infix_cons_iff.mp hinfix with hprefix | hinfix
      · cases inner with
        | nil => simp at hprefix
        | cons d inner =>
          obtain ⟨rfl, rfl⟩ : '*' = c ∧ '/' = d := by simpa using hprefix
          exact hclose ⟨rfl, rfl⟩
      · exact hinner hinfix

end Token

namespace Value.Compact

/-! ### The grammar -/

/-- A unit with what separates it from the one in front. -/
structure Piece where
  gap : List Char
  unit : List Char
  deriving DecidableEq, Repr

/-- **The inside of a quoted string**: characters that are neither a backslash nor the quote, and
characters behind a backslash. -/
inductive Quotes (quote : Char) : List Char → Prop
  | nil : Quotes quote []
  | escape (c : Char) {inner : List Char} (h : Quotes quote inner) :
      Quotes quote ('\\' :: c :: inner)
  | char {c : Char} {inner : List Char} (hslash : c ≠ '\\') (hquote : c ≠ quote)
      (h : Quotes quote inner) : Quotes quote (c :: inner)

/-- **A unit** in front of `behind`: an escaped character, a quoted string, or another character
that separates nothing.  At the end of the text a backslash has nothing to escape, and a string may
lack its closing quote. -/
inductive IsUnit (behind : List Char) : List Char → Prop
  | escape (c : Char) : IsUnit behind ['\\', c]
  | backslash (hend : behind = []) : IsUnit behind ['\\']
  | quoted {quote : Char} {inner : List Char} (hquote : isQuote quote = true)
      (hinner : Quotes quote inner) : IsUnit behind (quote :: (inner ++ [quote]))
  | unclosed {quote : Char} {inner slash : List Char} (hquote : isQuote quote = true)
      (hinner : Quotes quote inner) (hslash : slash = [] ∨ slash = ['\\']) (hend : behind = []) :
      IsUnit behind (quote :: (inner ++ slash))
  | single {c : Char} (hslash : c ≠ '\\') (hquote : isQuote c = false)
      (hwhite : Text.isWhiteSpace c = false) (hcomment : ¬(c = '/' ∧ behind.head? = some '*')) :
      IsUnit behind [c]

/-- **What separates units**, in front of `behind`: white space and comments.  At the end of the
text a comment may lack its closing mark. -/
inductive IsGap (behind : List Char) : List Char → Prop
  | nil : IsGap behind []
  | white {c : Char} {cs : List Char} (hwhite : Text.isWhiteSpace c = true)
      (h : IsGap behind cs) : IsGap behind (c :: cs)
  | comment {inner cs : List Char} (hinner : ¬['*', '/'] <:+: inner) (h : IsGap behind cs) :
      IsGap behind ('/' :: '*' :: (inner ++ '*' :: '/' :: cs))
  | unclosed {inner : List Char} (hinner : ¬['*', '/'] <:+: inner) (hend : behind = []) :
      IsGap behind ('/' :: '*' :: inner)

/-- **A text is read** as units with separators in front of them, and the separators at its end. -/
inductive Reading : List Char → List Piece → List Char → Prop
  | last {gap : List Char} (hgap : IsGap [] gap) : Reading gap [] gap
  | cons {gap unit behind last : List Char} {ps : List Piece} (hgap : IsGap (unit ++ behind) gap)
      (hunit : IsUnit behind unit) (h : Reading behind ps last) :
      Reading (gap ++ (unit ++ behind)) (⟨gap, unit⟩ :: ps) last

/-! ### Reading by scanning -/

/-- The pieces of a text behind the separators `gap`, and the separators at its end. -/
def pieces (gap : List Char) : List Char → List Piece × List Char
  | [] => ([], gap)
  | c :: cs =>
    match separatorTail? c cs with
    | some n => pieces (gap ++ c :: cs.take n) (cs.drop n)
    | none =>
      let n := unitTail c cs
      let rest := pieces [] (cs.drop n)
      (⟨gap, c :: cs.take n⟩ :: rest.1, rest.2)
termination_by cs => cs.length
decreasing_by all_goals simp only [List.length_drop, List.length_cons]; omega

/-- A unit with a note whether a separator stands in front. -/
def Piece.noted (p : Piece) : Unit := ⟨p.gap != [], p.unit⟩

/-- The units are those of the pieces. -/
theorem units_eq_map_pieces (gap cs : List Char) :
    units (gap != []) cs = (pieces gap cs).1.map Piece.noted := by
  fun_induction pieces gap cs with
  | case1 => rw [units]; rfl
  | case2 gap c cs n htail ih =>
    rw [units, htail, ← ih, show (gap ++ c :: cs.take n != []) = true by simp]
  | case3 gap c cs htail n rest ih =>
    rw [units, htail]
    simp only [List.map_cons, List.cons.injEq]
    exact ⟨rfl, ih⟩

theorem separatorTail?_comment {inner : List Char} (hinner : ¬['*', '/'] <:+: inner)
    (cs : List Char) :
    separatorTail? '/' ('*' :: (inner ++ '*' :: '/' :: cs)) = some (inner.length + 3) := by
  rw [separatorTail?, if_neg (by decide), if_pos ⟨rfl, rfl⟩, List.tail_cons, commentLength,
    Token.commentTail_append_of_not_infix hinner]
  rfl

theorem separatorTail?_unclosed {inner : List Char} (hinner : ¬['*', '/'] <:+: inner) :
    separatorTail? '/' ('*' :: inner) = some (inner.length + 1) := by
  rw [separatorTail?, if_neg (by decide), if_pos ⟨rfl, rfl⟩, List.tail_cons, commentLength,
    Token.commentTail_eq_none_iff.mpr hinner]
  rfl

theorem isGap_of_separatorTail? {c : Char} {cs : List Char} {n : Nat}
    (h : separatorTail? c cs = some n) : IsGap (cs.drop n) (c :: cs.take n) := by
  rw [separatorTail?] at h
  split at h
  · next hwhite =>
    obtain rfl : 0 = n := by simpa using h
    exact .white hwhite .nil
  split at h
  · next hcomment =>
    obtain ⟨rfl, hstar⟩ := hcomment
    obtain ⟨cs, rfl⟩ := List.head?_eq_some_iff.mp hstar
    obtain rfl : commentLength cs + 1 = n := by simpa using h
    rw [List.drop_succ_cons, List.take_succ_cons]
    cases hreach : Token.commentTail cs with
    | none =>
      rw [commentLength, hreach, Option.getD_none, List.take_length, List.drop_length]
      exact .unclosed (Token.commentTail_eq_none_iff.mp hreach) rfl
    | some m =>
      obtain ⟨inner, rest, rfl, rfl, hinner⟩ := Token.commentTail_eq_some hreach
      have hcut : inner ++ '*' :: '/' :: rest = inner ++ ['*', '/'] ++ rest := by simp
      rw [commentLength, hreach, Option.getD_some, hcut, List.take_left' (by simp),
        List.drop_left' (by simp)]
      exact .comment hinner .nil
  · cases h

/-- Separators behind separators. -/
theorem IsGap.append {behind gap cs : List Char} (h : IsGap (cs ++ behind) gap)
    (hcs : IsGap behind cs) : IsGap behind (gap ++ cs) := by
  induction h with
  | nil => exact hcs
  | white hwhite _ ih => exact .white hwhite ih
  | comment hinner _ ih =>
    rw [List.cons_append, List.cons_append, List.append_assoc]
    exact .comment hinner ih
  | unclosed hinner hend =>
    obtain ⟨rfl, rfl⟩ := List.append_eq_nil_iff.mp hend
    rw [List.append_nil]
    exact .unclosed hinner rfl

theorem pieces_of_isGap {behind gap : List Char} (h : IsGap behind gap) (front : List Char) :
    pieces front (gap ++ behind) = pieces (front ++ gap) behind := by
  induction h generalizing front with
  | nil => simp
  | @white c cs hwhite _ ih =>
    rw [List.cons_append, pieces, separatorTail?, if_pos hwhite]
    simpa using ih (front ++ [c])
  | @comment inner cs hinner _ ih =>
    have hcut : inner ++ '*' :: '/' :: (cs ++ behind) = inner ++ ['*', '/'] ++ (cs ++ behind) := by
      simp
    rw [List.cons_append, List.cons_append, List.append_assoc, List.cons_append, List.cons_append,
      pieces, separatorTail?_comment hinner]
    dsimp only
    rw [List.take_succ_cons, List.drop_succ_cons, hcut, List.take_left' (by simp),
      List.drop_left' (by simp), ih]
    simp
  | @unclosed inner hinner hend =>
    subst hend
    rw [List.append_nil, pieces.eq_2, separatorTail?_unclosed hinner]
    simp

theorem quotedTail_of_quotes {quote : Char} {inner : List Char} (hinner : Quotes quote inner)
    (cs : List Char) :
    quotedTail quote (inner ++ cs) = inner.length + quotedTail quote cs := by
  induction hinner with
  | nil => simp
  | escape c _ ih =>
    rw [List.cons_append, List.cons_append, quotedTail, ih, List.length_cons, List.length_cons]
    omega
  | char hslash hne _ ih =>
    rw [List.cons_append, quotedTail_cons_of_ne _ hslash, if_neg hne, ih, List.length_cons]
    omega

/-- The inside of a string is what the scan for its end passes. -/
theorem exists_quotes (quote : Char) (cs : List Char) :
    ∃ inner, Quotes quote inner ∧ ((∃ rest, cs = inner ++ quote :: rest) ∨
      ∃ slash, (slash = [] ∨ slash = ['\\']) ∧ cs = inner ++ slash) := by
  fun_induction Token.dangles cs with
  | case1 => exact ⟨[], .nil, .inr ⟨[], .inl rfl, rfl⟩⟩
  | case2 => exact ⟨[], .nil, .inr ⟨['\\'], .inr rfl, rfl⟩⟩
  | case3 c cs ih =>
    obtain ⟨inner, hinner, ⟨rest, rfl⟩ | ⟨slash, hslash, rfl⟩⟩ := ih
    · exact ⟨_, .escape c hinner, .inl ⟨rest, rfl⟩⟩
    · exact ⟨_, .escape c hinner, .inr ⟨slash, hslash, rfl⟩⟩
  | case4 c cs hne₁ hne₂ ih =>
    have hc : c ≠ '\\' := Token.ne_backslash hne₁ hne₂
    by_cases hquote : c = quote
    · subst hquote
      exact ⟨[], .nil, .inl ⟨cs, rfl⟩⟩
    obtain ⟨inner, hinner, ⟨rest, rfl⟩ | ⟨slash, hslash, rfl⟩⟩ := ih
    · exact ⟨_, .char hc hquote hinner, .inl ⟨rest, rfl⟩⟩
    · exact ⟨_, .char hc hquote hinner, .inr ⟨slash, hslash, rfl⟩⟩

theorem ne_backslash_of_isQuote {c : Char} (h : isQuote c = true) : c ≠ '\\' := by
  rintro rfl
  cases h

/-- The scan takes a unit where no separator starts. -/
theorem isUnit_of_separatorTail? {c : Char} {cs : List Char} (h : separatorTail? c cs = none) :
    IsUnit (cs.drop (unitTail c cs)) (c :: cs.take (unitTail c cs)) := by
  obtain ⟨hwhite, hcomment⟩ := separatorTail?_eq_none_iff.mp h
  unfold unitTail
  split
  · next hc =>
    subst hc
    cases cs with
    | nil => exact .backslash rfl
    | cons d cs => exact .escape d
  next hc =>
  split
  · next hquote =>
    obtain ⟨inner, hinner, ⟨rest, rfl⟩ | ⟨slash, hslash, rfl⟩⟩ := exists_quotes c cs
    · have hlength : quotedTail c (inner ++ c :: rest) = (inner ++ [c]).length := by
        rw [quotedTail_of_quotes hinner, quotedTail_cons_of_ne _ hc, if_pos rfl]
        simp
      have hcut : inner ++ c :: rest = inner ++ [c] ++ rest := List.append_cons ..
      rw [hlength, hcut, List.take_left, List.drop_left]
      exact .quoted hquote hinner
    · have hlength : quotedTail c (inner ++ slash) = (inner ++ slash).length := by
        rw [quotedTail_of_quotes hinner, List.length_append]
        rcases hslash with rfl | rfl <;> rfl
      rw [hlength, List.take_length, List.drop_length]
      exact .unclosed hquote hinner hslash rfl
  · next hquote => exact .single hc (by simpa using hquote) hwhite hcomment

theorem IsUnit.ne_nil {behind unit : List Char} (h : IsUnit behind unit) : unit ≠ [] := by
  cases h <;> simp

/-- No separator starts where a unit does, and the scan takes all of it. -/
theorem IsUnit.exists_scan {behind unit : List Char} (h : IsUnit behind unit) :
    ∃ c text, unit = c :: text ∧ separatorTail? c (text ++ behind) = none ∧
      unitTail c (text ++ behind) = text.length := by
  have hescape (cs : List Char) : separatorTail? '\\' cs = none :=
    separatorTail?_eq_none_iff.mpr ⟨rfl, by simp⟩
  have hstring {quote : Char} (hquote : isQuote quote = true) (cs : List Char) :
      separatorTail? quote cs = none := by
    simp only [isQuote, Bool.or_eq_true, beq_iff_eq] at hquote
    rw [separatorTail?_eq_none_iff]
    rcases hquote with rfl | rfl
    · exact ⟨rfl, by simp⟩
    · exact ⟨rfl, by simp⟩
  cases h with
  | escape c => exact ⟨'\\', [c], rfl, hescape _, by simp [unitTail]⟩
  | backslash hend =>
    subst hend
    exact ⟨'\\', [], rfl, hescape _, rfl⟩
  | @quoted quote inner hquote hinner =>
    have hne := ne_backslash_of_isQuote hquote
    refine ⟨quote, _, rfl, hstring hquote _, ?_⟩
    rw [unitTail, if_neg hne, if_pos hquote, List.append_assoc, quotedTail_of_quotes hinner,
      List.singleton_append, quotedTail_cons_of_ne _ hne, if_pos rfl, List.length_append]
    rfl
  | @unclosed quote inner slash hquote hinner hslash hend =>
    have hne := ne_backslash_of_isQuote hquote
    subst hend
    refine ⟨quote, _, rfl, hstring hquote _, ?_⟩
    rw [unitTail, if_neg hne, if_pos hquote, List.append_nil, quotedTail_of_quotes hinner,
      List.length_append]
    rcases hslash with rfl | rfl <;> rfl
  | @single c hslash hquote hwhite hcomment =>
    exact ⟨c, [], rfl, separatorTail?_eq_none_iff.mpr ⟨hwhite, hcomment⟩,
      by simp [unitTail, hslash, hquote]⟩

theorem pieces_of_isUnit {behind unit : List Char} (h : IsUnit behind unit) (gap : List Char) :
    pieces gap (unit ++ behind) =
      (⟨gap, unit⟩ :: (pieces [] behind).1, (pieces [] behind).2) := by
  obtain ⟨c, text, rfl, hsep, hlength⟩ := h.exists_scan
  rw [List.cons_append, pieces, hsep]
  simp only [hlength, List.take_left, List.drop_left]

theorem reading_pieces {gap cs : List Char} (hgap : IsGap cs gap) :
    Reading (gap ++ cs) (pieces gap cs).1 (pieces gap cs).2 := by
  fun_induction pieces gap cs with
  | case1 => rw [List.append_nil]; exact .last hgap
  | case2 gap c cs n htail ih =>
    have hcut : c :: cs = c :: cs.take n ++ cs.drop n := by simp
    rw [hcut] at hgap ⊢
    rw [← List.append_assoc]
    exact ih (hgap.append (isGap_of_separatorTail? htail))
  | case3 gap c cs htail n rest ih =>
    have hcut : c :: cs = c :: cs.take n ++ cs.drop n := by simp
    rw [hcut] at hgap ⊢
    exact .cons hgap (isUnit_of_separatorTail? htail) (ih .nil)

/-- **Each text has exactly one reading**, the one that the scan finds. -/
theorem reading_iff {text last : List Char} {ps : List Piece} :
    Reading text ps last ↔ pieces [] text = (ps, last) := by
  constructor
  · intro h
    induction h with
    | last hgap =>
      have hscan := pieces_of_isGap hgap []
      rw [List.append_nil, List.nil_append, pieces] at hscan
      exact hscan
    | cons hgap hunit _ ih =>
      rw [pieces_of_isGap hgap, pieces_of_isUnit hunit, ih, List.nil_append]
  · intro h
    have hscan := @reading_pieces [] text .nil
    rwa [h] at hscan

/-! ### Pieces between which separators are replaced -/

/-- **Pieces as compaction separates them**, behind a text that ends with `last`. -/
def spaced (tight : Tightness) (last : Option Char) : List Piece → List Piece
  | [] => []
  | p :: ps =>
    ⟨if p.gap != [] && tight.spaces last p.unit.head? then [' '] else [], p.unit⟩ ::
      spaced tight p.unit.getLast? ps

theorem map_unit_spaced (tight : Tightness) (last : Option Char) (ps : List Piece) :
    (spaced tight last ps).map Piece.unit = ps.map Piece.unit := by
  induction ps generalizing last with
  | nil => rfl
  | cons p ps ih => rw [spaced, List.map_cons, List.map_cons, ih]

/-- At most one space is left, where a separator was. -/
theorem forall₂_spaced (tight : Tightness) (last : Option Char) (ps : List Piece) :
    List.Forall₂ (fun p p' => p'.gap = [] ∨ p'.gap = [' '] ∧ p.gap ≠ []) ps
      (spaced tight last ps) := by
  induction ps generalizing last with
  | nil => exact .nil
  | cons p ps ih =>
    refine .cons ?_ (ih _)
    cases hspace : p.gap != [] && tight.spaces last p.unit.head? with
    | false => exact .inl (by simp)
    | true =>
      obtain ⟨hgap, -⟩ := Bool.and_eq_true_iff.mp hspace
      exact .inr ⟨by simp, by simpa using hgap⟩

/-- Nothing is written in front of the first unit. -/
theorem gap_of_head?_spaced {tight : Tightness} {ps : List Piece} {p : Piece}
    (h : (spaced tight none ps).head? = some p) : p.gap = [] := by
  cases ps with
  | nil => cases h
  | cons q ps =>
    obtain rfl := Option.some.inj h
    simp [Tightness.spaces]

/-- A unit is a unit in front of other text, unless that ends the text or makes a slash open a
comment. -/
theorem IsUnit.change {behind behind' unit : List Char} (h : IsUnit behind unit)
    (hend : behind = [] → behind' = [])
    (hstar : unit = ['/'] → behind'.head? = some '*' → behind.head? = some '*') :
    IsUnit behind' unit := by
  cases h with
  | escape c => exact .escape c
  | backslash h => exact .backslash (hend h)
  | quoted hquote hinner => exact .quoted hquote hinner
  | unclosed hquote hinner hslash h => exact .unclosed hquote hinner hslash (hend h)
  | single hslash hquote hwhite hcomment =>
    refine .single hslash hquote hwhite ?_
    rintro ⟨rfl, hhead⟩
    exact hcomment ⟨rfl, hstar rfl hhead⟩

theorem Reading.eq_nil {ps : List Piece} {last : List Char} (h : Reading [] ps last) : ps = [] := by
  rw [reading_iff, pieces] at h
  exact (congrArg Prod.fst h).symm

/-- What is written behind a slash starts with a star only if the text did. -/
theorem Reading.head?_write {tight : Tightness} (htight : tight.Harmless) {text last : List Char}
    {ps : List Piece} (h : Reading text ps last)
    (hstar : (write tight (some '/') (ps.map Piece.noted)).head? = some '*') :
    text.head? = some '*' := by
  cases h with
  | last => cases hstar
  | @cons gap unit behind _ ps hgap hunit h =>
    obtain ⟨c, text, rfl, -⟩ := hunit.exists_scan
    have hspaces : tight.spaces (some '/') (some '*') = true := by
      have hbehind : '/' ∉ tight.behind := fun h =>
        (htight '/' (List.mem_append_right _ h)).1 rfl
      have hbefore : '*' ∉ tight.before := fun h =>
        (htight '*' (List.mem_append_left _ h)).2.1 rfl
      simp [Tightness.spaces, hbehind, hbefore]
    rw [List.map_cons, Piece.noted, write] at hstar
    cases gap with
    | nil => simpa using hstar
    | cons d gap =>
      cases hspace : tight.spaces (some '/') (some c) with
      | true => simp [hspace] at hstar
      | false =>
        obtain rfl : c = '*' := by simpa [hspace] using hstar
        rw [hspaces] at hspace
        cases hspace

/-- **What is written is read as the units that it was written for.** -/
theorem Reading.write {tight : Tightness} (htight : tight.Harmless) {text last : List Char}
    {ps : List Piece} (h : Reading text ps last) (previous : Option Char) :
    Reading (write tight previous (ps.map Piece.noted)) (spaced tight previous ps) [] := by
  induction h generalizing previous with
  | last => exact .last .nil
  | @cons gap unit behind last ps hgap hunit h ih =>
    rw [List.map_cons, Piece.noted, Compact.write, spaced, List.append_assoc]
    refine .cons ?_ (hunit.change ?_ ?_) (ih _)
    · split
      · exact .white rfl .nil
      · exact .nil
    · rintro rfl
      rw [h.eq_nil]
      rfl
    · rintro rfl hstar
      exact h.head?_write htight hstar

/-- **A compact text is read** as the units of the text, with at most a space between them. -/
theorem Reading.compact {tight : Tightness} (htight : tight.Harmless) {text last : List Char}
    {ps : List Piece} (h : Reading text ps last) :
    Reading (compact tight text) (spaced tight none ps) [] := by
  have hunits := units_eq_map_pieces [] text
  rw [reading_iff.mp h] at hunits
  rw [Compact.compact, show units false text = _ from hunits]
  exact h.write htight none

/-! ### Where a space goes -/

/-- No tight punctuation is a mark that opens a longer unit. -/
def Tightness.Unquoting (tight : Tightness) : Prop :=
  ∀ c ∈ tight.before ++ tight.behind, c ≠ '\\' ∧ isQuote c = false

theorem selectorTightness_unquoting : selectorTightness.Unquoting := by
  simp only [Tightness.Unquoting, selectorTightness, List.cons_append, List.nil_append,
    List.forall_mem_cons]
  simp [isQuote]

theorem valueTightness_unquoting : valueTightness.Unquoting := by
  simp only [Tightness.Unquoting, valueTightness, List.cons_append, List.nil_append,
    List.forall_mem_cons]
  simp [isQuote]

/-- A unit starts with a mark if it is the mark. -/
theorem IsUnit.head?_iff {behind unit : List Char} (h : IsUnit behind unit) {c : Char}
    (hslash : c ≠ '\\') (hquote : isQuote c = false) : unit.head? = some c ↔ unit = [c] := by
  have hopens {quote : Char} (hopen : isQuote quote = true) (inner : List Char) :
      (quote :: inner).head? = some c ↔ quote :: inner = [c] := by
    constructor
    · intro hhead
      obtain rfl : quote = c := by simpa using hhead
      simp [hopen] at hquote
    · rintro hunit
      rw [hunit]
      rfl
  cases h with
  | escape d => simp [hslash.symm]
  | backslash => simp
  | quoted hopen => exact hopens hopen _
  | unclosed hopen => exact hopens hopen _
  | single => simp

/-- **A unit ends with a mark** if it is the mark, or the mark behind a backslash. -/
theorem IsUnit.getLast?_iff {behind unit : List Char} (h : IsUnit behind unit)
    (hbehind : behind ≠ []) {c : Char} (hquote : isQuote c = false) :
    unit.getLast? = some c ↔ unit = [c] ∨ unit = ['\\', c] := by
  cases h with
  | escape d => simp
  | backslash hend => exact absurd hend hbehind
  | @quoted quote inner hopen =>
    have hne : quote ≠ c := by
      rintro rfl
      simp [hopen] at hquote
    rw [← List.cons_append, List.getLast?_concat]
    constructor
    · rintro h
      exact absurd (Option.some.inj h) hne
    · rintro (h | h)
      · simp at h
      · rw [List.cons_append, List.cons.injEq] at h
        exact absurd h.1 (ne_backslash_of_isQuote hopen)
  | unclosed _ _ _ hend => exact absurd hend hbehind
  | @single d hslash => simp

/-- **The test of the characters next to a separator** asks for a mark in front of which no space
goes, or for one behind which none goes, where an escaped one will do. -/
theorem Tightness.Unquoting.spaces_iff {tight : Tightness} (htight : tight.Unquoting)
    {behind behind' p q : List Char} (hp : IsUnit behind p) (hbehind : behind ≠ [])
    (hq : IsUnit behind' q) :
    tight.spaces p.getLast? q.head? = true ↔
      ¬(∃ c ∈ tight.before, q = [c]) ∧ ¬∃ c ∈ tight.behind, p = [c] ∨ p = ['\\', c] := by
  have hfirst : (∃ c ∈ tight.before, q.head? = some c) ↔ ∃ c ∈ tight.before, q = [c] := by
    refine exists_congr fun c => and_congr_right fun hc => ?_
    obtain ⟨hslash, hquote⟩ := htight c (List.mem_append_left _ hc)
    exact hq.head?_iff hslash hquote
  have hlast : (∃ c ∈ tight.behind, p.getLast? = some c) ↔
      ∃ c ∈ tight.behind, p = [c] ∨ p = ['\\', c] :=
    exists_congr fun c => and_congr_right fun hc =>
      hp.getLast?_iff hbehind (htight c (List.mem_append_right _ hc)).2
  rw [← hfirst, ← hlast, Tightness.spaces]
  obtain ⟨a, ha⟩ :=
    Option.ne_none_iff_exists'.mp fun h => hp.ne_nil (List.getLast?_eq_none_iff.mp h)
  obtain ⟨b, hb⟩ := Option.ne_none_iff_exists'.mp fun h => hq.ne_nil (List.head?_eq_none_iff.mp h)
  rw [ha, hb]
  simp [and_comm]

/-- **Between two units** stands a space in the compact text if they were separated and there is no
tight punctuation on either side. -/
theorem Reading.exists_joint {tight : Tightness} (htight : tight.Unquoting)
    {text last : List Char} {ps : List Piece} (h : Reading text ps last) (previous : Option Char)
    {i : ℕ} {p q : Piece} (hp : ps[i]? = some p) (hq : ps[i + 1]? = some q) :
    ∃ q', (spaced tight previous ps)[i + 1]? = some q' ∧ q'.unit = q.unit ∧
      (q'.gap = [] ∨ q'.gap = [' ']) ∧
      (q'.gap = [' '] ↔ q.gap ≠ [] ∧ ¬(∃ c ∈ tight.before, q.unit = [c]) ∧
        ¬∃ c ∈ tight.behind, p.unit = [c] ∨ p.unit = ['\\', c]) := by
  induction h generalizing previous i with
  | last => cases hp
  | @cons gap unit behind last ps hgap hunit h ih =>
    cases i with
    | succ i => exact ih _ hp hq
    | zero =>
      obtain rfl := Option.some.inj hp
      cases h with
      | last => cases hq
      | @cons gap' unit' behind' _ ps hgap' hunit' h =>
        obtain rfl := Option.some.inj hq
        have hbehind : gap' ++ (unit' ++ behind') ≠ [] := by simp [hunit'.ne_nil]
        rw [← htight.spaces_iff hunit hbehind hunit']
        refine ⟨_, rfl, rfl, ?_, ?_⟩
        · dsimp only
          split
          · exact .inr rfl
          · exact .inl rfl
        · simp

end Value.Compact

namespace Value

open Value.Compact

variable {f : String → String}

/-- Compaction with either set of tight punctuation is compaction of the characters. -/
theorem toList_compact {tight : Tightness}
    (hf : f = compactSelector ∧ tight = selectorTightness ∨
      f = compactValue ∧ tight = valueTightness) (text : String) :
    (f text).toList = compact tight text.toList := by
  rcases hf with ⟨rfl, rfl⟩ | ⟨rfl, rfl⟩
  · exact String.toList_ofList
  · exact String.toList_ofList

/-- **Compaction keeps the units of a text.**  The text and its compact form each have one reading.
The units are the same; in the compact form nothing stands in front of the first and behind the last
unit, and between two units there is at most one space, where something separated them before.
Compaction changes nothing more. -/
theorem reading_compact (hf : f = compactSelector ∨ f = compactValue) (text : String) :
    ∃ ps last ps', (∀ qs gap, Reading text.toList qs gap ↔ qs = ps ∧ gap = last) ∧
      (∀ qs gap, Reading (f text).toList qs gap ↔ qs = ps' ∧ gap = []) ∧
      ps'.map Piece.unit = ps.map Piece.unit ∧ (∀ p ∈ ps'.head?, p.gap = []) ∧
      List.Forall₂ (fun p p' => p'.gap = [] ∨ p'.gap = [' '] ∧ p.gap ≠ []) ps ps' ∧
      f (f text) = f text := by
  obtain ⟨tight, htight, hharmless, hagain⟩ : ∃ tight,
      (f = compactSelector ∧ tight = selectorTightness ∨
        f = compactValue ∧ tight = valueTightness) ∧
      tight.Harmless ∧ f (f text) = f text := by
    rcases hf with rfl | rfl
    · exact ⟨_, .inl ⟨rfl, rfl⟩, selectorTightness_harmless, compactSelector_compactSelector text⟩
    · exact ⟨_, .inr ⟨rfl, rfl⟩, valueTightness_harmless, compactValue_compactValue text⟩
  have hunique {cs last : List Char} {ps : List Piece} (h : Reading cs ps last) (qs : List Piece)
      (gap : List Char) : Reading cs qs gap ↔ qs = ps ∧ gap = last := by
    rw [reading_iff, reading_iff.mp h, Prod.mk.injEq, eq_comm, eq_comm (a := last)]
  have hreading : Reading text.toList _ _ := reading_iff.mpr rfl
  have hcompact := hreading.compact hharmless
  rw [← toList_compact htight] at hcompact
  exact ⟨_, _, _, hunique hreading, hunique hcompact, map_unit_spaced ..,
    fun p hp => gap_of_head?_spaced hp, forall₂_spaced .., hagain⟩

theorem reading_compact_openQuote :
    ∃ ps', (∀ qs gap, Reading (compactValue " a/*k*/, 'b ").toList qs gap ↔ qs = ps' ∧ gap = []) ∧
      ps'.map Piece.unit = [['a'], [','], ['\'', 'b', ' ']] ∧
      compactValue (compactValue " a/*k*/, 'b ") = compactValue " a/*k*/, 'b " := by
  obtain ⟨ps, last, ps', htext, hcompact, hunits, -, -, hagain⟩ :=
    reading_compact (.inr rfl) " a/*k*/, 'b "
  have hread : (pieces [] " a/*k*/, 'b ".toList).1.map Piece.unit =
      [['a'], [','], ['\'', 'b', ' ']] := by decide +kernel
  obtain ⟨rfl, -⟩ := (htext _ _).mp (reading_iff.mpr rfl)
  exact ⟨ps', hcompact, hunits.trans hread, hagain⟩

/-- **Where a space is left.**  Between two units that were separated there is a space in the
compact form unless the second one is a mark in front of which none goes, or the first one is a mark
behind which none goes, or such a mark behind a backslash. -/
theorem space_left_iff {tight : Tightness}
    (hf : f = compactSelector ∧ tight = selectorTightness ∨
      f = compactValue ∧ tight = valueTightness) {text : String} {ps ps' : List Piece}
    {last last' : List Char} (h : Reading text.toList ps last)
    (h' : Reading (f text).toList ps' last') {i : ℕ} {p q : Piece} (hp : ps[i]? = some p)
    (hq : ps[i + 1]? = some q) (hgap : q.gap ≠ []) :
    ∃ q', ps'[i + 1]? = some q' ∧ q'.unit = q.unit ∧ (q'.gap = [] ∨ q'.gap = [' ']) ∧
      (q'.gap = [' '] ↔ ¬(∃ c ∈ tight.before, q.unit = [c]) ∧
        ¬∃ c ∈ tight.behind, p.unit = [c] ∨ p.unit = ['\\', c]) := by
  obtain ⟨hharmless, hunquoting⟩ : tight.Harmless ∧ tight.Unquoting := by
    rcases hf with ⟨-, rfl⟩ | ⟨-, rfl⟩
    · exact ⟨selectorTightness_harmless, selectorTightness_unquoting⟩
    · exact ⟨valueTightness_harmless, valueTightness_unquoting⟩
  have hcompact := h.compact hharmless
  rw [← toList_compact hf, reading_iff, reading_iff.mp h', Prod.mk.injEq] at hcompact
  obtain ⟨q', hq', hunit, hspace, hiff⟩ := h.exists_joint hunquoting none hp hq
  rw [hcompact.1]
  exact ⟨q', hq', hunit, hspace, by rw [hiff, and_iff_right hgap]⟩

theorem space_left_iff_comma :
    Reading "a\\, b".toList [⟨[], ['a']⟩, ⟨[], ['\\', ',']⟩, ⟨[' '], ['b']⟩] [] ∧
      ∃ q', [(⟨[], ['a']⟩ : Piece), ⟨[], ['\\', ',']⟩, ⟨[], ['b']⟩][1 + 1]? = some q' ∧
        q'.unit = ['b'] ∧ (q'.gap = [] ∨ q'.gap = [' ']) ∧
        (q'.gap = [' '] ↔ ¬(∃ c ∈ valueTightness.before, ['b'] = [c]) ∧
          ¬∃ c ∈ valueTightness.behind, ['\\', ','] = [c] ∨ ['\\', ','] = ['\\', c]) := by
  have htext : Reading "a\\, b".toList
      [⟨[], ['a']⟩, ⟨[], ['\\', ',']⟩, ⟨[' '], ['b']⟩] [] :=
    reading_iff.mpr (by decide +kernel)
  have hcompact : Reading (compactValue "a\\, b").toList
      [⟨[], ['a']⟩, ⟨[], ['\\', ',']⟩, ⟨[], ['b']⟩] [] :=
    reading_iff.mpr (by decide +kernel)
  exact ⟨htext, space_left_iff (.inr ⟨rfl, rfl⟩) htext hcompact (i := 1) rfl rfl (by simp)⟩

/-- **An escaped mark swallows the space behind it**: neither `\\,` nor `b` is a mark, but the space
between them is gone. -/
theorem exists_space_lost :
    Reading "a\\, b".toList [⟨[], ['a']⟩, ⟨[], ['\\', ',']⟩, ⟨[' '], ['b']⟩] [] ∧
      compactValue "a\\, b" = "a\\,b" ∧
      Reading "a\\,b".toList [⟨[], ['a']⟩, ⟨[], ['\\', ',']⟩, ⟨[], ['b']⟩] [] ∧
      Reading ".a\\> b".toList
        [⟨[], ['.']⟩, ⟨[], ['a']⟩, ⟨[], ['\\', '>']⟩, ⟨[' '], ['b']⟩] [] ∧
      compactSelector ".a\\> b" = ".a\\>b" :=
  ⟨reading_iff.mpr (by decide +kernel), by decide +kernel, reading_iff.mpr (by decide +kernel),
    reading_iff.mpr (by decide +kernel), by decide +kernel⟩

end Value
end LosslessCss
