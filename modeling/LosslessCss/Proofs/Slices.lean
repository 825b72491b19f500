import LosslessCss.Parse.Guarded
import LosslessCss.Proofs.Lexing
import LosslessCss.Proofs.Violations
import LosslessCss.Proofs.Tiling

/-!
# Fields cut out of the source

The guarded parser cuts each field of a node out of the source, between an end of one token and an end
of another.  Tokens stand in a row from the start of the source on (`Token.Laid`), so a token starts
behind the text of the tokens in front of it, and the text between two ends is the text of the tokens
that stand there (`Token.Laid.slice_between`).  All cuts of the parser are of this form: where it cuts,
a list of tokens falls into parts, and the field has the text of one of them.

What is cut out of the text of a single token is told by the kind of the token: a comment has its two
marks, and an at-word its `@`.

## Main Definitions

* `Token.Laid` : the tokens stand in the source, from its start on

## Main Statements

* `Guarded.slice_eq_ok_iff` : what it takes to be cut out
* `tokenize_laid`
* `Guarded.commentParts_eq`, `Guarded.atRuleHead_eq`, `Guarded.splitImportant_eq`,
  `Guarded.declaration_eq` : the parts of a statement
-/

namespace LosslessCss

open String (utf8Len utf8Len_toList)

/-! ### Cutting -/

namespace Guarded

/-- **What it takes to be cut out**: the offsets are in order and lie between characters, and the text
between them is the answer. -/
theorem slice_eq_ok_iff {text part : String} {start stop : Nat} :
    slice text start stop = .ok part ↔ ∃ front behind, text = front ++ part ++ behind ∧
      start = front.utf8ByteSize ∧ stop = (front ++ part).utf8ByteSize := by
  constructor
  · intro h
    unfold slice at h
    split at h
    · next part' hslice =>
      obtain rfl : part' = part := Except.ok.inj h
      rw [Source.slice?, Option.ite_none_right_eq_some] at hslice
      obtain ⟨⟨-, hle⟩, hslice⟩ := hslice
      obtain ⟨⟨front, rest⟩, hfront, hslice⟩ := Option.bind_eq_some_iff.mp hslice
      obtain ⟨⟨middle, behind⟩, hmiddle, hpart⟩ := Option.bind_eq_some_iff.mp hslice
      obtain rfl : String.ofList middle = part' := Option.some.inj hpart
      obtain ⟨htext, rfl⟩ := Source.eq_append_of_cut? hfront
      obtain ⟨rfl, hsize⟩ := Source.eq_append_of_cut? hmiddle
      refine ⟨String.ofList front, String.ofList behind, ?_, ?_, ?_⟩
      · apply String.toList_inj.mp
        rw [htext]
        simp
      · rw [← utf8Len_toList, String.toList_ofList]
      · rw [← utf8Len_toList, String.toList_append, String.toList_ofList, String.toList_ofList,
          String.utf8Len_append, hsize]
        omega
    · cases h
  · rintro ⟨front, behind, htext, rfl, rfl⟩
    have hcovers : Span.Covers ⟨0, Position.start.advance front,
        Position.start.advance (front ++ part)⟩ { text := text } part := ⟨front, behind, htext, rfl⟩
    have hslice := hcovers.slice?_eq
    simp only [Position.advance_offset, Position.start_offset, Nat.zero_add] at hslice
    rw [slice, hslice]

section Parts

variable {text : String} {front behind : List Char} (h : text.toList = front ++ behind)

include h

theorem eq_ofList_append : text = String.ofList front ++ String.ofList behind := by
  rw [← String.ofList_append, ← h, String.ofList_toList]

theorem utf8ByteSize_eq_add : text.utf8ByteSize =
    (String.ofList front).utf8ByteSize + (String.ofList behind).utf8ByteSize := by
  rw [eq_ofList_append h, String.utf8ByteSize_append]

/-- The start of a text. -/
theorem slice_front : slice text 0 (String.ofList front).utf8ByteSize = .ok (String.ofList front) := by
  refine slice_eq_ok_iff.mpr ⟨"", String.ofList behind, ?_, rfl, by rw [String.empty_append]⟩
  rw [String.empty_append, ← eq_ofList_append h]

/-- The end of a text. -/
theorem slice_behind : slice text (String.ofList front).utf8ByteSize text.utf8ByteSize =
    .ok (String.ofList behind) := by
  refine slice_eq_ok_iff.mpr ⟨String.ofList front, "", ?_, rfl, by rw [← eq_ofList_append h]⟩
  rw [String.append_empty, ← eq_ofList_append h]

end Parts

end Guarded

/-! ### Tokens in their source -/

/-- **The tokens stand in the source**, one behind the other from its start on, and their texts fit
their kinds. -/
structure Token.Laid (source : Source) (ts : List Token) : Prop where
  text : ∃ rest, source.text = concat ts ++ rest
  inRow : InRow source.id .start ts
  spells : ∀ t ∈ ts, t.kind.Spells t.text.toList

/-- **The tokens of a source stand in it**, strict or lenient, and with an error behind them or
without. -/
theorem tokenize_laid (source : Source) (lenient : Bool) :
    Token.Laid source (tokenize source lenient).tokens := by
  have hfresh := Reader.ofSource_fresh source lenient
  obtain ⟨rest, hrest, -⟩ := hfresh.exists_rest
  refine ⟨⟨String.ofList rest, ?_⟩, tokenize_inRow source lenient, hfresh.drain_spells⟩
  apply String.toList_inj.mp
  rw [String.toList_append, String.toList_ofList]
  exact hrest

namespace Token.Laid

variable {source : Source} {before run ts us : List Token} {t : Token}

theorem of_append (h : Laid source (ts ++ us)) : Laid source ts := by
  obtain ⟨⟨rest, htext⟩, hrow, hspells⟩ := h
  refine ⟨⟨concat us ++ rest, ?_⟩, (InRow.append_iff.mp hrow).1,
    fun t ht => hspells t (List.mem_append_left _ ht)⟩
  rw [htext, concat_append, String.append_assoc]

theorem source_eq (h : Laid source ts) (ht : t ∈ ts) : t.span.source = source.id :=
  h.inRow.source_eq ht

/-- A token starts behind the text in front of it. -/
theorem start_offset (h : Laid source (before ++ run)) (ht : t ∈ run.head?) :
    t.start.offset = (concat before).utf8ByteSize := by
  rw [(InRow.append_iff.mp h.inRow).2.start_eq ht]
  simp

/-- A token stops where its text does. -/
theorem stop_offset (h : Laid source (before ++ run)) (ht : t ∈ run.getLast?) :
    t.stop.offset = (concat (before ++ run)).utf8ByteSize := by
  obtain ⟨us, rfl⟩ := List.getLast?_eq_some_iff.mp ht
  rw [h.inRow.stop_eq (by simp)]
  simp [Nat.add_assoc]

theorem start_offset? (h : Laid source (before ++ run)) :
    ∀ p ∈ run.head?.map Token.start, p.offset = (concat before).utf8ByteSize := by
  intro p hp
  obtain ⟨t, ht, rfl⟩ := Option.map_eq_some_iff.mp hp
  exact h.start_offset ht

theorem stop_offset? (h : Laid source (before ++ run)) :
    ∀ p ∈ run.getLast?.map Token.stop, p.offset = (concat (before ++ run)).utf8ByteSize := by
  intro p hp
  obtain ⟨t, ht, rfl⟩ := Option.map_eq_some_iff.mp hp
  exact h.stop_offset ht

/-- **The text between two ends** is the text of the tokens that stand there. -/
theorem slice_between (h : Laid source (before ++ run)) :
    Guarded.slice source.text (concat before).utf8ByteSize (concat (before ++ run)).utf8ByteSize =
      .ok (concat run) := by
  obtain ⟨rest, htext⟩ := h.text
  refine Guarded.slice_eq_ok_iff.mpr ⟨concat before, rest, ?_, rfl, ?_⟩
  · rw [htext, concat_append]
  · rw [concat_append]

/-- The text between two places, where one of them may be missing only if there is no text. -/
theorem sliceBetween_eq (h : Laid source (before ++ run)) {start? stop? : Option Position}
    (hstart : ∀ p ∈ start?, p.offset = (concat before).utf8ByteSize)
    (hstop : ∀ p ∈ stop?, p.offset = (concat (before ++ run)).utf8ByteSize)
    (hnone : start? = none ∨ stop? = none → run = []) :
    Guarded.sliceBetween source start? stop? = .ok (concat run) := by
  cases start? with
  | none =>
    rw [hnone (.inl rfl)]
    rfl
  | some start =>
    cases stop? with
    | none =>
      rw [hnone (.inr rfl)]
      rfl
    | some stop =>
      rw [Guarded.sliceBetween, hstart start rfl, hstop stop rfl]
      exact h.slice_between

end Token.Laid

namespace Guarded

/-! ### Comments -/

/-- **A comment has room for its marks**, and its parts are what the text between them says. -/
theorem commentParts_eq {t : Token} (ht : Token.Kind.comment.Spells t.text.toList) :
    commentParts t = .ok (CommentParts.ofText t.text) := by
  obtain ⟨cs, hcs⟩ := ht
  generalize hinner : String.ofList cs = inner
  have htext : t.text = "/*" ++ inner ++ "*/" := by
    apply String.toList_inj.mp
    rw [hcs, ← hinner]
    simp
  have hsize : t.text.utf8ByteSize = inner.utf8ByteSize + 4 := by
    rw [htext, String.utf8ByteSize_append, String.utf8ByteSize_append]
    change 2 + inner.utf8ByteSize + 2 = _
    omega
  have hlong : ¬ t.text.utf8ByteSize < 4 := by omega
  have hslice : slice t.text 2 (t.text.utf8ByteSize - 2) = .ok inner := by
    refine slice_eq_ok_iff.mpr ⟨"/*", "*/", htext, rfl, ?_⟩
    rw [hsize, String.utf8ByteSize_append]
    change _ = 2 + inner.utf8ByteSize
    omega
  have hlist : (t.text.toList.drop 2).dropLast.dropLast = inner.toList := by
    rw [hcs, ← hinner]
    simp
  have hleft : slice inner 0 (inner.utf8ByteSize -
      (String.ofList (Text.trimStart inner.toList)).utf8ByteSize) =
        .ok (String.ofList (Text.leadingSpace inner.toList)) := by
    have hcut := (Text.leadingSpace_append_trimStart inner.toList).symm
    rw [utf8ByteSize_eq_add hcut, Nat.add_sub_cancel]
    exact slice_front hcut
  have hright : slice inner (inner.utf8ByteSize - (inner.utf8ByteSize -
      (String.ofList (Text.trimEnd inner.toList)).utf8ByteSize)) inner.utf8ByteSize =
        .ok (String.ofList (Text.trailingSpace inner.toList)) := by
    have hcut := (Text.trimEnd_append_trailingSpace inner.toList).symm
    have hsize := utf8ByteSize_eq_add hcut
    rw [Nat.sub_sub_self (by omega)]
    exact slice_behind hcut
  rw [commentParts, if_neg hlong, CommentParts.ofText, hlist]
  simp only [hslice, bind, Except.bind, pure, Except.pure]
  split
  · rw [String.ofList_toList]
  · rw [hleft, hright]

/-! ### At-rules -/

/-- **The head of an at-rule** starts with `@`, and the rest is cut where its blank space ends. -/
theorem atRuleHead_eq {source : Source} {before content : List Token} {word : Token}
    (h : Token.Laid source (before ++ content)) (hword : word ∈ content.head?)
    (hkind : word.kind = .atWord) (hlast : ∀ t ∈ content.getLast?, t.isSpace = false) :
    atRuleHead source content = .ok (AtRuleHead.ofTokens content) := by
  obtain ⟨rest, rfl⟩ := List.head?_eq_some_iff.mp hword
  obtain ⟨name, hname⟩ : ∃ name, word.text.toList = '@' :: name := by
    have hspells := h.spells word (by simp)
    rwa [hkind] at hspells
  have hslice : slice word.text 1 word.text.utf8ByteSize = .ok (String.ofList name) :=
    slice_behind (show word.text.toList = ['@'] ++ name from hname)
  have hspaces : rest.takeWhile Token.isSpace ++ rest.dropWhile Token.isSpace = rest :=
    List.takeWhile_append_dropWhile
  have hall : ∀ t ∈ rest.takeWhile Token.isSpace, t.isSpace = true :=
    fun t ht => List.mem_takeWhile_imp ht
  rw [atRuleHead, AtRuleHead.ofTokens, hname, hslice]
  generalize rest.takeWhile Token.isSpace = blank at hspaces hall ⊢
  generalize rest.dropWhile Token.isSpace = params at hspaces ⊢
  subst hspaces
  rw [List.append_cons] at h
  have hcut : Token.Laid source (before ++ [word] ++ blank ++ params) := by
    rwa [List.append_assoc]
  -- Without parameters there is no blank space, for it would be at the end.
  have hblank : params = [] → blank = [] := by
    rintro rfl
    by_contra hne
    have hmem := List.getLast?_eq_some_getLast hne
    have hspace := hlast (blank.getLast hne) (by simp [List.getLast?_cons, hmem])
    rw [hall _ (List.getLast_mem hne)] at hspace
    cases hspace
  have hafter : sliceBetween source ((blank ++ params).head?.map Token.start)
      (params.head?.map Token.start) = .ok (Token.concat blank) := by
    refine hcut.of_append.sliceBetween_eq h.start_offset? hcut.start_offset? ?_
    rintro (hnone | hnone) <;> simp_all
  have hparams : sliceBetween source (params.head?.map Token.start)
      ((blank ++ params).getLast?.map Token.stop) = .ok (Token.concat params) := by
    refine hcut.sliceBetween_eq hcut.start_offset? ?_ ?_
    · rw [List.append_assoc]
      exact h.stop_offset?
    · rintro (hnone | hnone) <;> simp_all
  simp only [List.head?_cons, ne_eq, not_true_eq_false, if_false, hafter, hparams, bind, Except.bind,
    pure, Except.pure, List.drop_one, List.tail_cons]

/-! ### Declarations -/

/-- **The mark `!important`** is cut off where the space in front of its last `!` starts. -/
theorem splitImportant_eq (value : String) :
    splitImportant value = .ok (String.ofList (LosslessCss.splitImportant value.toList).1,
      (LosslessCss.splitImportant value.toList).2.map String.ofList) := by
  have hcut : dropTrailing (· != '!') value.toList ++ takeTrailing (· != '!') value.toList =
    value.toList := dropTrailing_append_takeTrailing _ _
  have hbang : ∀ c ∈ (dropTrailing (· != '!') value.toList).getLast?, (c != '!') = false :=
    dropTrailing_eq_self_iff.mp (dropTrailing_dropTrailing _)
  rw [splitImportant, LosslessCss.splitImportant]
  generalize dropTrailing (· != '!') value.toList = upToBang at hcut hbang ⊢
  generalize takeTrailing (· != '!') value.toList = behind at hcut ⊢
  rcases List.eq_nil_or_concat upToBang with rfl | ⟨front, c, rfl⟩
  · simp [pure, Except.pure]
  · obtain rfl : c = '!' := by simpa using hbang c (by simp)
    rw [List.concat_eq_append] at hcut ⊢
    have hbehind : slice value ((String.ofList front).utf8ByteSize + 1) value.utf8ByteSize =
        .ok (String.ofList behind) := by
      have hbang : (String.ofList (front ++ ['!'])).toList = front ++ ['!'] := String.toList_ofList
      have hpart := slice_behind hcut.symm
      rwa [utf8ByteSize_eq_add hbang] at hpart
    have hfront : slice value 0 (String.ofList front).utf8ByteSize = .ok (String.ofList front) :=
      slice_front (show value.toList = front ++ '!' :: behind by rw [← hcut]; simp)
    -- The space in front of the mark goes with it.
    have htrim : value.toList =
        Text.trimEnd front ++ (Text.trailingSpace front ++ '!' :: behind) := by
      rw [← List.append_assoc, Text.trimEnd_append_trailingSpace, ← hcut]
      simp
    have hdrop : value.toList.drop (Text.trimEnd front).length =
        Text.trailingSpace front ++ '!' :: behind := by
      rw [htrim, List.drop_left]
    have hkept := slice_front htrim
    have hmark := slice_behind htrim
    rw [← hdrop] at hmark
    generalize "important".toList = mark
    cases himportant : Text.eqIgnoringCase (Text.trim behind) mark <;>
      simp [himportant, hbehind, hfront, hkept, hmark, bind, Except.bind, pure, Except.pure]

/-- The error that a fault of a declaration is. -/
def faultError (first : Token) (content : List Token) : DeclarationFault → ParseError
  | .missingColon => .missingColon (Token.concat content) first.start
  | .missingProperty => .missingProperty first.start

/-- **Behind the property** the source is cut at the start of the value, if there is one. -/
theorem slice_behind_property {source : Source} {before property gap trivia value : List Token}
    {colon behind last : Token}
    (h : Token.Laid source (before ++ property ++ (gap ++ colon :: trivia) ++ value))
    (hbehind : behind ∈ property.getLast?)
    (hlast : last.stop.offset =
      (Token.concat (before ++ property ++ (gap ++ colon :: trivia) ++ value)).utf8ByteSize) :
    (value = [] → slice source.text behind.stop.offset last.stop.offset =
        .ok (Token.concat gap ++ colon.text ++ Token.concat trivia)) ∧
      ∀ start ∈ value.head?,
        slice source.text behind.stop.offset start.start.offset =
            .ok (Token.concat gap ++ colon.text ++ Token.concat trivia) ∧
          slice source.text start.start.offset last.stop.offset = .ok (Token.concat value) := by
  have hbetween : Token.concat (gap ++ colon :: trivia) =
      Token.concat gap ++ colon.text ++ Token.concat trivia := by
    simp [String.append_assoc]
  have hcut := h.of_append.slice_between
  rw [← h.of_append.of_append.stop_offset hbehind, hbetween] at hcut
  refine ⟨?_, fun start hstart => ?_⟩
  · rintro rfl
    rwa [hlast, List.append_nil]
  · rw [hlast, h.start_offset hstart]
    exact ⟨hcut, h.slice_between⟩

/-- **A declaration is cut** at its ends, at the end of its property and at the start of its value. -/
theorem declaration_eq {source : Source} {before content : List Token} {first : Token}
    (h : Token.Laid source (before ++ content)) (hfirst : first ∈ content.head?) :
    declaration source content = ((DeclarationParts.ofTokens content).mapError
      fun fault => .error (faultError first content fault)) := by
  obtain ⟨last, hlast⟩ : ∃ last, content.getLast? = some last :=
    List.getLast?_isSome.mpr (by rintro rfl; cases hfirst) |> Option.isSome_iff_exists.mp
  have hstart := h.start_offset hfirst
  have hstop := h.stop_offset hlast
  have hwhole : content.takeWhile (·.kind != .colon) ++ content.dropWhile (·.kind != .colon) =
    content := List.takeWhile_append_dropWhile
  rw [declaration, DeclarationParts.ofTokens, hlast, show content.head? = some first from hfirst]
  dsimp only
  cases hrest : content.dropWhile (·.kind != .colon) with
  | nil =>
    have hslice : slice source.text first.start.offset last.stop.offset =
        .ok (Token.concat content) := by
      rw [hstart, hstop]
      exact h.slice_between
    dsimp only
    rw [hslice]
    rfl
  | cons colon rest =>
    dsimp only
    -- The tokens are the property, the gap behind it, the colon, trivia, and the value.
    generalize content.takeWhile (·.kind != .colon) = head at hwhole ⊢
    rw [hrest] at hwhole
    have hhead : Statement.content head ++ Statement.gap head = head :=
      dropTrailing_append_takeTrailing _ _
    generalize Statement.content head = property at hhead ⊢
    generalize Statement.gap head = gap at hhead ⊢
    have htrivia : rest.takeWhile Token.isTrivia ++ rest.dropWhile Token.isTrivia = rest :=
      List.takeWhile_append_dropWhile
    generalize rest.takeWhile Token.isTrivia = trivia at htrivia ⊢
    generalize rest.dropWhile Token.isTrivia = value at htrivia ⊢
    subst hhead htrivia hwhole
    cases hbehind : property.getLast? with
    | none =>
      rw [List.getLast?_eq_none_iff.mp hbehind]
      rfl
    | some behind =>
      have hne : property.isEmpty = false := by
        cases property with
        | nil => cases hbehind
        | cons => rfl
      rw [show before ++ (property ++ gap ++ colon :: (trivia ++ value)) =
        before ++ property ++ (gap ++ colon :: trivia) ++ value by simp] at h hstop
      have hproperty : slice source.text first.start.offset behind.stop.offset =
          .ok (Token.concat property) := by
        rw [hstart, h.of_append.of_append.stop_offset hbehind]
        exact h.of_append.of_append.slice_between
      dsimp only
      rw [hproperty, hne]
      obtain ⟨hnone, hsome⟩ := slice_behind_property h hbehind hstop
      cases value with
      | nil =>
        simp [hnone rfl, splitImportant_eq, bind, Except.bind, pure, Except.pure, Except.mapError]
      | cons start rest =>
        obtain ⟨hbetween, hvalue⟩ := hsome start rfl
        simp [hbetween, hvalue, splitImportant_eq, bind, Except.bind, pure, Except.pure,
          Except.mapError]

end Guarded

end LosslessCss
