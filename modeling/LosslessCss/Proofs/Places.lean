import LosslessCss.Proofs.Lexing

/-!
# Where tokens stand

A place in a source is reached by passing the text in front of it, so places can be compared by
their offsets and a span can be described by the three texts that it cuts its source into.  Tokens
come in a row: each starts where the one in front of it stops.  This holds for all that a reader
hands out, strict or lenient, up to the end or up to an error, so the place of every token is known
from the texts in front of it.

## Main Definitions

* `Token.InRow` : tokens that stand one behind the other
* `Source.IsPlace` : a place of the source, between two of its characters
* `Span.Covers` : the span of a stretch of the source, with the text of the stretch
* `Span.FitsIn` : a span of the source

## Main Statements

* `Token.InRow.covers`, `Token.InRow.isChain` : where the tokens of a row stand
* `Token.InRow.eq_of_lexeme` : a row is determined by its lexemes and its first place
* `Reader.Fresh.drain_inRow`, `tokenize_inRow` : tokens come in a row
* `Span.Covers.slice?_eq` : the source is cut at a span as its places say
-/

namespace LosslessCss

open String (utf8Len utf8Len_toList)

/-! ### Places and offsets -/

namespace Position

theorem step_offset (p : Position) (c : Char) : (p.step c).offset = p.offset + c.utf8Size := by
  unfold step
  split
  · next hline =>
    subst hline
    rfl
  · rfl

/-- **Offsets count bytes.** -/
@[simp]
theorem advance_offset (p : Position) (text : String) :
    (p.advance text).offset = p.offset + text.utf8ByteSize := by
  rw [advance, ← utf8Len_toList]
  generalize text.toList = cs
  induction cs generalizing p with
  | nil => rfl
  | cons c cs ih =>
    rw [List.foldl_cons, ih, step_offset, String.utf8Len_cons]
    omega

@[simp]
theorem start_offset : start.offset = 0 := rfl

/-- The place behind characters is the place behind their text. -/
theorem foldl_step (p : Position) (cs : List Char) :
    cs.foldl step p = p.advance (String.ofList cs) := by
  rw [advance, String.toList_ofList]

end Position

namespace Source

/-- The end of a source stands behind all its bytes. -/
theorem endPosition_offset (s : Source) : s.endPosition.offset = s.size := by
  simp [endPosition, size]

/-- Nothing is cut off in front of the first byte. -/
@[simp]
theorem cut?_zero (cs : List Char) : cut? 0 cs = some ([], cs) := by
  cases cs <;> rfl

/-- **A cut behind a text** cuts what follows the text. -/
theorem cut?_append (n : Nat) (cs ds : List Char) :
    cut? (utf8Len cs + n) (cs ++ ds) = (cut? n ds).map fun cut => (cs ++ cut.1, cut.2) := by
  induction cs with
  | nil => cases hcut : cut? n ds <;> simp [hcut]
  | cons c cs ih =>
    have hpos := c.utf8Size_pos
    obtain ⟨m, hm⟩ : ∃ m, utf8Len (c :: cs) + n = m + 1 :=
      ⟨utf8Len cs + c.utf8Size + n - 1, by rw [String.utf8Len_cons]; omega⟩
    have hbehind : m + 1 - c.utf8Size = utf8Len cs + n := by
      rw [← hm, String.utf8Len_cons]
      omega
    have hfits : ¬m + 1 < c.utf8Size := by
      rw [← hm, String.utf8Len_cons]
      omega
    rw [hm, List.cons_append, cut?, if_neg hfits, hbehind, ih, Option.map_map]
    rfl

/-- A text is cut behind its first part. -/
theorem cut?_size (cs ds : List Char) : cut? (utf8Len cs) (cs ++ ds) = some (cs, ds) := by
  simpa using cut?_append 0 cs ds

/-- A cut yields two parts, the first of which has the given size. -/
theorem eq_append_of_cut? {n : Nat} {cs front behind : List Char}
    (h : cut? n cs = some (front, behind)) : cs = front ++ behind ∧ utf8Len front = n := by
  fun_induction cut? n cs generalizing front behind with
  | case1 cs =>
    obtain ⟨rfl, rfl⟩ := Prod.mk.inj (Option.some.inj h)
    exact ⟨rfl, rfl⟩
  | case2 => cases h
  | case3 => cases h
  | case4 n c cs hfits ih =>
    obtain ⟨⟨front, behind⟩, hcut, hpair⟩ := Option.map_eq_some_iff.mp h
    obtain ⟨rfl, rfl⟩ := Prod.mk.inj hpair
    obtain ⟨rfl, hsize⟩ := ih hcut
    refine ⟨rfl, ?_⟩
    rw [String.utf8Len_cons, hsize]
    omega

/-- **A place of the source**: it is reached by passing the text in front of it, so it lies between
two characters or at an end. -/
def IsPlace (s : Source) (p : Position) : Prop :=
  ∃ front behind, s.text = front ++ behind ∧ p = Position.start.advance front

theorem isPlace_start (s : Source) : s.IsPlace .start := ⟨"", s.text, by simp, rfl⟩

theorem isPlace_endPosition (s : Source) : s.IsPlace s.endPosition := ⟨s.text, "", by simp, rfl⟩

end Source

/-! ### Spans -/

namespace Span

/-- **A span of the source**: it carries the number of the source, and both its ends are places of
it, in this order. -/
structure FitsIn (span : Span) (s : Source) : Prop where
  source : span.source = s.id
  start : s.IsPlace span.start
  stop : s.IsPlace span.stop
  start_le_stop : span.start.offset ≤ span.stop.offset

/-- **The span of a stretch of the source**, with the text of the stretch. -/
def Covers (span : Span) (s : Source) (text : String) : Prop :=
  ∃ front behind, s.text = front ++ text ++ behind ∧
    span = ⟨s.id, Position.start.advance front, Position.start.advance (front ++ text)⟩

namespace Covers

variable {span : Span} {s : Source} {text : String}

theorem fitsIn (h : span.Covers s text) : span.FitsIn s := by
  obtain ⟨front, behind, htext, rfl⟩ := h
  exact
    { source := rfl
      start := ⟨front, text ++ behind, by rw [htext, String.append_assoc], rfl⟩
      stop := ⟨front ++ text, behind, htext, rfl⟩
      start_le_stop := by simp }

/-- **The source is cut at a span** as the places of the span say. -/
theorem slice?_eq (h : span.Covers s text) :
    s.slice? span.source span.start.offset span.stop.offset = some text := by
  obtain ⟨front, behind, htext, rfl⟩ := h
  have hcut : Source.cut? front.utf8ByteSize s.text.toList =
      some (front.toList, text.toList ++ behind.toList) := by
    rw [htext, ← utf8Len_toList front]
    simpa using Source.cut?_size front.toList (text.toList ++ behind.toList)
  have hcut' := Source.cut?_size text.toList behind.toList
  rw [utf8Len_toList] at hcut'
  simp [Source.slice?, hcut, hcut']

end Covers

end Span

/-! ### Rows -/

namespace Token

/-- **Tokens that stand one behind the other**, the first one at the given place of the source
numbered `id`. -/
def InRow (id : Nat) (p : Position) : List Token → Prop
  | [] => True
  | t :: ts => t.span = ⟨id, p, p.advance t.text⟩ ∧ InRow id (p.advance t.text) ts

namespace InRow

variable {id : Nat} {p : Position} {ts us : List Token}

/-- **Rows compose.** -/
theorem append_iff :
    InRow id p (ts ++ us) ↔ InRow id p ts ∧ InRow id (p.advance (concat ts)) us := by
  induction ts generalizing p with
  | nil => simp [InRow]
  | cons t ts ih => simp [InRow, ih, and_assoc]

/-- The first token of a row stands where the row starts. -/
theorem start_eq {t : Token} (h : InRow id p ts) (ht : t ∈ ts.head?) : t.start = p := by
  obtain ⟨us, rfl⟩ := List.head?_eq_some_iff.mp ht
  rw [start, h.1]

/-- A row ends where its last token does. -/
theorem stop_eq {t : Token} (h : InRow id p ts) (ht : t ∈ ts.getLast?) :
    t.stop = p.advance (concat ts) := by
  obtain ⟨us, rfl⟩ := List.getLast?_eq_some_iff.mp ht
  have hlast := (append_iff.mp h).2
  rw [stop, hlast.1]
  simp

/-- The tokens of a row carry the number of their source. -/
theorem source_eq {t : Token} (h : InRow id p ts) (ht : t ∈ ts) : t.span.source = id := by
  obtain ⟨us, vs, rfl⟩ := List.append_of_mem ht
  rw [(append_iff.mp h).2.1]

/-- Each token of a row starts where the one in front of it stops. -/
theorem isChain (h : InRow id p ts) : ts.IsChain fun t u => u.start = t.stop := by
  induction ts generalizing p with
  | nil => exact .nil
  | cons t ts ih =>
    refine (ih h.2).cons fun u hu => ?_
    rw [h.2.start_eq hu, stop, h.1]

/-- Each token of a row stands where its source has its text. -/
theorem covers {s : Source} {rest : String} {t : Token} (h : InRow s.id .start ts)
    (htext : s.text = concat ts ++ rest) (ht : t ∈ ts) : t.span.Covers s t.text := by
  obtain ⟨us, vs, rfl⟩ := List.append_of_mem ht
  refine ⟨concat us, concat vs ++ rest, ?_, ?_⟩
  · rw [htext, concat_append, concat_cons]
    simp only [String.append_assoc]
  · rw [(append_iff.mp h).2.1, Position.advance_append]

/-- **A row is determined** by its lexemes and its first place. -/
theorem eq_of_lexeme (h : InRow id p ts) (h' : InRow id p us)
    (hsame : ts.map lexeme = us.map lexeme) : ts = us := by
  induction ts generalizing p us with
  | nil =>
    rw [List.map_nil, eq_comm, List.map_eq_nil_iff] at hsame
    exact hsame.symm
  | cons t ts ih =>
    cases us with
    | nil => simp at hsame
    | cons u us =>
      obtain ⟨hlexeme, hrest⟩ := List.cons_eq_cons.mp hsame
      obtain ⟨hkind, htext⟩ : t.kind = u.kind ∧ t.text = u.text := by
        simpa [lexeme, String.toList_inj] using hlexeme
      have hspan : t.span = u.span := by rw [h.1, h'.1, htext]
      have htoken : t = u := by
        cases t
        cases u
        simp_all
      rw [htoken] at h ⊢
      rw [ih h.2 h'.2 hrest]

end InRow

end Token

/-- A token that is read stands where the reader stood, which goes on behind it. -/
theorem Reader.emit_inRow (r : Reader) (kind : Token.Kind) (text rest : List Char)
    {ts : List Token}
    (h : Token.InRow r.source.id (r.emit kind text rest).2.position ts) :
    Token.InRow r.source.id r.position ((r.emit kind text rest).1 :: ts) := by
  have hstop : (r.emit kind text rest).2.position = r.position.advance (String.ofList text) :=
    Position.foldl_step _ _
  refine ⟨?_, hstop ▸ h⟩
  simp [emit, Position.foldl_step]

/-- **Tokens come in a row**, whether the reader comes to the end or not. -/
theorem Reader.Fresh.drain_inRow {r : Reader} (h : r.Fresh) :
    Token.InRow r.source.id r.position r.drain.1.tokens := by
  induction r, h using Fresh.induction with
  | done r h hahead =>
    rw [drain_of_none (h.next_of_nil hahead)]
    trivial
  | failure r h cause hahead hstrict hnext =>
    rw [drain_of_error hnext]
    trivial
  | token r h kind text rest _ _ hcut hnext ih =>
    rw [drain_of_ok hnext]
    exact r.emit_inRow kind text rest ih

/-- **The tokens of a source stand in a row** from its start. -/
theorem tokenize_inRow (source : Source) (lenient : Bool) :
    Token.InRow source.id .start (tokenize source lenient).tokens :=
  (Reader.ofSource_fresh source lenient).drain_inRow

end LosslessCss
