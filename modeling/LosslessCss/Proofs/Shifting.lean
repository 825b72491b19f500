import LosslessCss.Proofs.Grammar
import LosslessCss.Proofs.Places

/-!
# Texts that stand further back

A text that has another text in front of it is read as it is read alone, but all its places are
moved back by the extent of the text in front (`Position.shift`).  Lines add up, and columns do so
on the first line only.

Reading needs no more than that: of its place a reader makes no use but to write it down
(`Reader.Fresh.drain_shift`).  What has to be shown is that the text in front is read as it is read
alone, too, and leaves no trace in the reader.  A closing brace sees to that.  It needs to see
nothing of what follows it, and no unquoted address can start behind it (`tokenize_append`).

## Main Definitions

* `Position.shift`, `Span.shift`, `Token.shift`, `Lexed.shift` : moved back by an extent

## Main Statements

* `Reader.Fresh.exists_drain_append` : a stretch of the text ahead is read first
* `tokenize_append` : behind a closing brace a text is read as it is read alone
-/

namespace LosslessCss

/-! ### Places -/

namespace Position

/-- **The place behind an extent**: where a place comes to stand if its text starts at `e`. -/
def shift (e p : Position) : Position where
  offset := e.offset + p.offset
  line := e.line + (p.line - 1)
  column := if p.line = 1 then e.column + (p.column - 1) else p.column

/-- Lines and columns are counted from 1. -/
structure Counted (p : Position) : Prop where
  line : 1 ≤ p.line
  column : 1 ≤ p.column

theorem start_counted : start.Counted := ⟨Nat.le_refl _, Nat.le_refl _⟩

variable {e p : Position}

theorem Counted.step (h : p.Counted) (c : Char) : (p.step c).Counted := by
  unfold Position.step
  split
  · exact ⟨Nat.succ_pos _, Nat.le_refl _⟩
  · exact ⟨h.line, Nat.succ_pos _⟩

/-- A character moves a place on, wherever its text starts. -/
theorem Counted.shift_step (h : p.Counted) (c : Char) :
    shift e (p.step c) = (shift e p).step c := by
  have hline := h.line
  have hcolumn := h.column
  unfold Position.step
  split
  · simp only [shift, Position.mk.injEq]
    refine ⟨by omega, by omega, ?_⟩
    rw [if_neg (by omega)]
  · simp only [shift, Position.mk.injEq]
    refine ⟨by omega, trivial, ?_⟩
    split <;> omega

/-- A text moves a place on, wherever the text in front of it starts. -/
theorem Counted.shift_foldl (h : p.Counted) (cs : List Char) :
    shift e (cs.foldl Position.step p) = cs.foldl Position.step (shift e p) ∧
      (cs.foldl Position.step p).Counted := by
  induction cs generalizing p with
  | nil => exact ⟨rfl, h⟩
  | cons c cs ih =>
    rw [List.foldl_cons, List.foldl_cons, ← h.shift_step]
    exact ih (h.step c)

@[simp]
theorem shift_start (e : Position) : shift e start = e := by
  simp [shift, start]

end Position

/-- A span moved back by an extent. -/
def Span.shift (e : Position) (s : Span) : Span := ⟨s.source, e.shift s.start, e.shift s.stop⟩

/-! ### Tokens -/

namespace Token

/-- A token moved back by an extent. -/
def shift (e : Position) (t : Token) : Token := { t with span := t.span.shift e }

variable {e : Position}

@[simp]
theorem shift_kind (t : Token) : (t.shift e).kind = t.kind := rfl

@[simp]
theorem shift_text (t : Token) : (t.shift e).text = t.text := rfl

@[simp]
theorem shift_span (t : Token) : (t.shift e).span = t.span.shift e := rfl

/-- Places do not matter to lexemes. -/
theorem map_lexeme_shift (ts : List Token) :
    (ts.map (shift e)).map lexeme = ts.map lexeme := by
  rw [List.map_map]
  rfl

@[simp]
theorem concat_map_shift (ts : List Token) : concat (ts.map (shift e)) = concat ts :=
  concat_congr (map_lexeme_shift ts)

end Token

namespace Statement

variable {e : Position}

theorem content_map_shift (ts : List Token) :
    content (ts.map (Token.shift e)) = (content ts).map (Token.shift e) :=
  dropTrailing_map _ _ _

theorem gap_map_shift (ts : List Token) :
    gap (ts.map (Token.shift e)) = (gap ts).map (Token.shift e) :=
  takeTrailing_map _ _ _

end Statement

/-- An error moved back by an extent. -/
def LexicalError.shift (e : Position) (err : LexicalError) : LexicalError :=
  { err with position := e.shift err.position }

/-- What was read, moved back by an extent. -/
def Lexed.shift (e : Position) (lexed : Lexed) : Lexed where
  tokens := lexed.tokens.map (Token.shift e)
  failure := lexed.failure.map (LexicalError.shift e)

/-! ### Readers -/

namespace Reader

variable {e : Position} {r r' : Reader}

/-- Reading a token does not depend on the place. -/
theorem emit_shift (hposition : r'.position = e.shift r.position)
    (hcounted : r.position.Counted) (hid : r'.source.id = r.source.id) (kind : Token.Kind)
    (text rest : List Char) :
    (r'.emit kind text rest).1 = (r.emit kind text rest).1.shift e ∧
      (r'.emit kind text rest).2.position = e.shift (r.emit kind text rest).2.position ∧
        (r.emit kind text rest).2.position.Counted := by
  obtain ⟨hfold, hcounted'⟩ := hcounted.shift_foldl (e := e) text
  refine ⟨?_, ?_, hcounted'⟩
  · simp [emit, Token.shift, Span.shift, hposition, hid, hfold]
  · simp [emit, hposition, hfold]

/-- **A text is read alike wherever it stands**: what is read is moved back. -/
theorem Fresh.drain_shift (h : r.Fresh) (h' : r'.Fresh) (hahead : r'.ahead = r.ahead)
    (hmode : r'.mode = r.mode) (hlenient : r'.lenient = r.lenient)
    (hid : r'.source.id = r.source.id) (hcounted : r.position.Counted)
    (hposition : r'.position = e.shift r.position) : r'.drain.1 = r.drain.1.shift e := by
  generalize hsize : r.ahead.length = size
  induction size using Nat.strong_induction_on generalizing r r' with
  | _ size ih =>
    subst hsize
    have htoken (kind : Token.Kind) (text rest : List Char)
        (hrest : rest.length < r.ahead.length)
        (hnext : r.next = (some (.ok (r.emit kind text rest).1), (r.emit kind text rest).2))
        (hnext' : r'.next = (some (.ok (r'.emit kind text rest).1), (r'.emit kind text rest).2)) :
        r'.drain.1 = r.drain.1.shift e := by
      obtain ⟨htoken, hplace, hcounted'⟩ := emit_shift hposition hcounted hid kind text rest
      have hmode' : (r'.emit kind text rest).2.mode = (r.emit kind text rest).2.mode := by
        simp [Reader.emit, hmode]
      have hbehind := ih rest.length hrest (h.emit kind text rest) (h'.emit kind text rest) rfl
        hmode' hlenient hid hcounted' hplace rfl
      rw [drain_of_ok hnext, drain_of_ok hnext', hbehind, htoken]
      rfl
    cases hcase : r.ahead with
    | nil =>
      rw [drain_of_none (h.next_of_nil hcase), drain_of_none (h'.next_of_nil (hahead.trans hcase))]
      rfl
    | cons c cs =>
      have hcase' := hahead.trans hcase
      cases hscan : Token.scan r.mode c cs with
      | error cause =>
        have hscan' : Token.scan r'.mode c cs = .error cause := by rw [hmode, hscan]
        cases hstrict : r.lenient with
        | false =>
          rw [drain_of_error (h.next_of_error_of_strict hcase hscan hstrict),
            drain_of_error (h'.next_of_error_of_strict hcase' hscan' (hlenient.trans hstrict)),
            hposition]
          rfl
        | true =>
          exact htoken .word (c :: cs) [] (by rw [hcase]; simp)
            (h.next_of_error_of_lenient hcase hscan hstrict)
            (h'.next_of_error_of_lenient hcase' hscan' (hlenient.trans hstrict))
      | ok outcome =>
        obtain ⟨kind, n⟩ := outcome
        have hscans := Token.scan_eq_ok_iff.mp hscan
        exact htoken kind (c :: cs.take n) (cs.drop n) (by rw [hcase]; simp)
          (h.next_of_scans hcase hscans) (h'.next_of_scans hcase' (hmode ▸ hscans))

/-- The reader behind a stretch of the text ahead. -/
def behind (r : Reader) (cs rest : List Char) (mode : Token.Mode) : Reader :=
  { r with position := r.position.advance (String.ofList cs), ahead := rest, mode := mode }

theorem Fresh.behind (h : r.Fresh) (cs rest : List Char) (mode : Token.Mode) :
    (r.behind cs rest mode).Fresh :=
  ⟨h.returned, h.failed⟩

/-- **A stretch of the text ahead is read first**, and then the rest. -/
theorem Fresh.exists_drain_append (h : r.Fresh) {cs rest : List Char} {ls : List Lexeme}
    {last : Token.Mode} (hlexes : Lexes r.mode cs rest ls last) (hahead : r.ahead = cs ++ rest) :
    ∃ ts, ts.map Token.lexeme = ls ∧
      r.drain.1 =
        ⟨ts ++ (r.behind cs rest last).drain.1.tokens,
          (r.behind cs rest last).drain.1.failure⟩ := by
  induction ls generalizing r cs with
  | nil =>
    cases hlexes
    have hsame : r.behind [] rest r.mode = r := by
      rw [Reader.behind, ← show r.ahead = rest from hahead]
      rfl
    exact ⟨[], rfl, by rw [hsame]; rfl⟩
  | cons l ls ih =>
    cases hlexes with
    | @cons _ _ kind c text cs _ _ hscan htail =>
      rw [List.append_assoc] at hahead
      have hnext := h.next_of_scans hahead hscan
      simp only [List.append_eq, List.take_left', List.drop_left'] at hnext
      obtain ⟨ts, hts, hdrain⟩ := ih (h.emit kind (c :: text) (cs ++ rest))
        (by simpa [Reader.emit] using htail) rfl
      refine ⟨(r.emit kind (c :: text) (cs ++ rest)).1 :: ts, ?_, ?_⟩
      · rw [List.map_cons, hts]
        simp [Reader.emit, Token.lexeme]
      · have hsame : (r.emit kind (c :: text) (cs ++ rest)).2.behind cs rest last =
            r.behind (c :: text ++ cs) rest last := by
          simp [Reader.behind, Reader.emit, Position.advance]
        rw [drain_of_ok hnext, hdrain, hsame]
        rfl

end Reader

/-! ### Behind a closing brace -/

/-- **A closing brace sees nothing of what follows it**, and behind it reading starts anew. -/
theorem Lexes.change_behind_brace {mode last : Token.Mode} {cs : List Char} {ls : List Lexeme}
    {brace : Lexeme} (h : Lexes mode cs [] (ls ++ [brace]) last) (hkind : brace.kind = .braceClose)
    (rest : List Char) : Lexes mode cs rest (ls ++ [brace]) .plain := by
  have htext : brace.text = ['\x7d'] := by
    have hspells := h.spells brace (by simp)
    rw [hkind] at hspells
    exact hspells
  obtain ⟨front, back, middle, rfl, hfront, hback⟩ := h.exists_of_append
  cases hback with
  | @cons _ _ kind c text _ _ _ hscan htail =>
    cases htail
    obtain rfl : kind = .braceClose := hkind
    obtain ⟨rfl, rfl⟩ : c = '\x7d' ∧ text = [] := List.cons.inj htext
    have hsame : SameStart (['\x7d'] ++ []) (['\x7d'] ++ rest) := ⟨rfl, fun h => by cases h⟩
    have hfollows : Token.Follows middle .braceClose ['\x7d'] ([] ++ rest) := by
      cases middle with
      | address => exact absurd hscan.follows (by simp [Token.Follows])
      | plain => trivial
      | behindUrl => trivial
    have hbrace := Lexes.cons (hscan.change hfollows) (.nil _ rest)
    rw [Token.Mode.after_eq_plain _ _ _ (by simp) (by simp)] at hbrace
    exact (hfront.change_of_sameStart hsame).append hbrace

/-- **Behind a closing brace a text is read as it is read alone**, but for its places. -/
theorem tokenize_append {front : Source} (hfailure : (tokenize front false).failure = none)
    {brace : Token} (hbrace : brace ∈ (tokenize front false).tokens.getLast?)
    (hkind : brace.kind = .braceClose) (text : String) :
    tokenize { front with text := front.text ++ text } false =
      ⟨(tokenize front false).tokens ++
          ((tokenize { front with text := text } false).shift front.endPosition).tokens,
        ((tokenize { front with text := text } false).shift front.endPosition).failure⟩ := by
  obtain ⟨last, hlexes⟩ := (Reader.ofSource_fresh front false).lexes_of_drain rfl hfailure
  obtain ⟨us, hus⟩ := List.getLast?_eq_some_iff.mp hbrace
  have hfront : Lexes .plain front.text.toList text.toList
      ((tokenize front false).tokens.map Token.lexeme) .plain := by
    have hread : Lexes .plain front.text.toList []
        ((tokenize front false).tokens.map Token.lexeme) last := hlexes
    rw [hus, List.map_append] at hread ⊢
    exact hread.change_behind_brace hkind text.toList
  have hfresh := Reader.ofSource_fresh { front with text := front.text ++ text } false
  obtain ⟨ts, hts, hdrain⟩ := hfresh.exists_drain_append hfront String.toList_append
  have hplace : ((Reader.ofSource { front with text := front.text ++ text } false).behind
      front.text.toList text.toList .plain).position =
        front.endPosition.shift (Reader.ofSource { front with text := text } false).position := by
    rw [Reader.behind, String.ofList_toList]
    exact (Position.shift_start _).symm
  have hbehind := (Reader.ofSource_fresh { front with text := text } false).drain_shift
    (hfresh.behind front.text.toList text.toList .plain) rfl rfl rfl rfl Position.start_counted
    hplace
  have hsame : ts = (tokenize front false).tokens := by
    have hrow := tokenize_inRow { front with text := front.text ++ text } false
    rw [tokenize, hdrain, Token.InRow.append_iff] at hrow
    exact hrow.1.eq_of_lexeme (tokenize_inRow front false) hts
  rw [tokenize, hdrain, hbehind, hsame]
  rfl

end LosslessCss
