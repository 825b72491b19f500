import LosslessCss.Proofs.Sessions

/-!
# How tokens cover a source

Asking for one token after the other comes to an end, and what came up until then covers the source:
no token is empty, each starts where the one in front of it stops, and each has the text that the
source has between its ends.  Without an error the tokens cover the whole source.  An error stands
where the last token stops, some of the source is left there, and nothing comes up behind it.

## Main Definitions

* `Lexed.answers` : what comes up, with the error as the last answer
* `Machine.pull?` : asking for a number of tokens
* `Source.Tiled` : tokens that cover a source

## Main Statements

* `Reader.Fresh.pull?_eq`, `Cursor.Tracks.pull?_eq` : what comes of asking on and on
* `tokenize_tiled` : the tokens of a source cover it
-/

namespace LosslessCss

open String (utf8Len utf8Len_toList)
open Text (encode)

/-- All answers in order: the tokens, and the error that ended them. -/
def Lexed.answers (l : Lexed) : List (Except LexicalError Token) :=
  l.tokens.map .ok ++ l.failure.toList.map .error

/-- **Asking for one token after the other**, a number of times. -/
def Machine.pull? {σ : Type} (m : Machine σ) :
    Nat → σ → Option (List (Option (Except LexicalError Token)))
  | 0, _ => some []
  | n + 1, s => (m.next? s).bind fun (answer, s) => (m.pull? n s).map (answer :: ·)

/-! ### Asking on and on -/

theorem Machine.pull?_succ {σ : Type} {m : Machine σ} {s s' : σ}
    {answer : Option (Except LexicalError Token)} (h : m.next? s = some (answer, s')) (n : Nat) :
    m.pull? (n + 1) s = (m.pull? n s').map (answer :: ·) := by
  rw [pull?, h, Option.bind_some]

/-- A reader and a cursor in the same state give the same answers, however often they are asked. -/
theorem Cursor.Tracks.pull?_eq {c : Cursor} {r : Reader} (h : c.Tracks r) (n : Nat) :
    Cursor.machine.pull? n c = Reader.machine.pull? n r := by
  induction n generalizing c r with
  | zero => rfl
  | succ n ih =>
    obtain ⟨c', hnext, htracks⟩ := h.next
    have hstep : Reader.machine.next? r = some (r.next.1, r.next.2) := rfl
    have hstep' : Cursor.machine.next? c = some (r.next.1, c') := hnext
    rw [Machine.pull?_succ hstep, Machine.pull?_succ hstep', ih htracks]

namespace Reader

variable {r r' : Reader} {answer : Except LexicalError Token}
  {answers : List (Except LexicalError Token)}

/-- A reader with nothing to hand out stays so. -/
theorem pull?_of_none (h : r.next = (none, r)) (n : Nat) :
    machine.pull? n r = some (List.replicate n none) := by
  induction n with
  | zero => rfl
  | succ n ih =>
    have hstep : machine.next? r = some (none, r) := congrArg some h
    rw [Machine.pull?_succ hstep, ih]
    rfl

/-- One answer comes in front of all others. -/
theorem pull?_of_some (h : r.next = (some answer, r'))
    (hrest : ∀ n, machine.pull? n r' = some ((List.range n).map (answers[·]?))) (n : Nat) :
    machine.pull? n r = some ((List.range n).map ((answer :: answers)[·]?)) := by
  cases n with
  | zero => rfl
  | succ n =>
    have hstep : machine.next? r = some (some answer, r') := congrArg some h
    rw [Machine.pull?_succ hstep, hrest, List.range_succ_eq_map]
    simp [Function.comp_def]

namespace Fresh

/-- **What comes of asking on and on**: all answers in order, and nothing behind them. -/
theorem pull?_eq (h : r.Fresh) (n : Nat) :
    machine.pull? n r = some ((List.range n).map (r.drain.1.answers[·]?)) := by
  induction r, h using Fresh.induction generalizing n with
  | done r h hahead =>
    rw [pull?_of_none (h.next_of_nil hahead), drain_of_none (h.next_of_nil hahead)]
    simp [Lexed.answers]
  | failure r h cause hahead hstrict hnext =>
    -- Behind an error the reader has nothing more to hand out.
    have hfailed : Reader.next { r with failed := true } =
        (none, { r with failed := true }) := by
      simp [next, h.returned]
    have hnothing (n : Nat) : machine.pull? n { r with failed := true } =
        some ((List.range n).map (([] : List (Except LexicalError Token))[·]?)) := by
      rw [pull?_of_none hfailed]
      simp
    rw [drain_of_error hnext]
    exact pull?_of_some hnext hnothing n
  | token r h kind text rest _ _ hcut hnext ih =>
    rw [drain_of_ok hnext]
    exact pull?_of_some hnext ih n

/-- **What is behind the tokens**: nothing without an error, and an error stands in front of it. -/
theorem exists_rest (h : r.Fresh) :
    ∃ rest, r.ahead = (Token.concat r.drain.1.tokens).toList ++ rest ∧
      (r.drain.1.failure = none → rest = []) ∧ ∀ e ∈ r.drain.1.failure,
        rest ≠ [] ∧ e.position = r.position.advance (Token.concat r.drain.1.tokens) := by
  induction r, h using Fresh.induction with
  | done r h hahead =>
    rw [drain_of_none (h.next_of_nil hahead), hahead]
    exact ⟨[], by simp⟩
  | failure r h cause hahead hstrict hnext =>
    rw [drain_of_error hnext]
    refine ⟨r.ahead, by simp, nofun, fun e he => ⟨hahead, ?_⟩⟩
    rw [← Option.some.inj he, Token.concat_nil, Position.advance_empty]
  | token r h kind text rest _ _ hcut hnext ih =>
    obtain ⟨behind, hrest, hnone, hsome⟩ := ih
    rw [drain_of_ok hnext]
    refine ⟨behind, ?_, hnone, fun e he => ⟨(hsome e he).1, ?_⟩⟩
    · have htext : (r.emit kind text rest).1.text.toList = text := String.toList_ofList
      rw [hcut, Token.concat_cons, String.toList_append, htext, List.append_assoc, ← hrest]
      rfl
    · rw [(hsome e he).2, Token.concat_cons, Position.advance_append]
      simp [Reader.emit, Position.foldl_step]

end Fresh

end Reader

/-! ### Covering -/

/-- **The tokens cover the source**, up to its end or up to an error. -/
structure Source.Tiled (s : Source) (l : Lexed) : Prop where
  nonempty : ∀ t ∈ l.tokens, t.text ≠ ""
  first : ∀ t ∈ l.tokens.head?, t.start = .start
  adjacent : l.tokens.IsChain fun t u => u.start = t.stop
  sliced : ∀ t ∈ l.tokens, s.slice? t.span.source t.start.offset t.stop.offset = some t.text
  boundaries : ∀ t ∈ l.tokens, Cursor.isBoundary s.bytes t.start.offset = true ∧
    Cursor.isBoundary s.bytes t.stop.offset = true
  whole : l.failure = none → Token.concat l.tokens = s.text
  before : ∀ e ∈ l.failure, e.position.offset < s.size ∧
    encode (Token.concat l.tokens).toList = s.bytes.take e.position.offset

/-- A place lies between two characters or at an end. -/
theorem Source.IsPlace.isBoundary {s : Source} {p : Position} (h : s.IsPlace p) :
    Cursor.isBoundary s.bytes p.offset = true := by
  obtain ⟨front, behind, htext, rfl⟩ := h
  have hboundary := Cursor.isBoundary_encode_append front.toList behind.toList
  rw [← String.toList_append, ← htext, String.utf8Len_toList] at hboundary
  rwa [Position.advance_offset, Position.start_offset, Nat.zero_add]

/-- The bytes in front of a cut are those of the text in front of it. -/
theorem Source.take_bytes {s : Source} {front behind : String} (h : s.text = front ++ behind) :
    s.bytes.take front.utf8ByteSize = encode front.toList := by
  rw [bytes, h, String.toList_append, ← utf8Len_toList, Text.take_encode_append]

/-- Tokens with texts are not more than characters. -/
theorem Token.length_le_length_concat {ts : List Token} (h : ∀ t ∈ ts, t.text ≠ "") :
    ts.length ≤ (concat ts).length := by
  induction ts with
  | nil => exact Nat.zero_le _
  | cons t ts ih =>
    obtain ⟨ht, hts⟩ := List.forall_mem_cons.mp h
    have hpos := Nat.pos_of_ne_zero (mt String.length_eq_zero_iff.mp ht)
    have hle := ih hts
    rw [List.length_cons, concat_cons, String.length_append]
    omega

/-- **Asking for one token after the other** gives not more tokens than the source has characters,
then the error, if there is one, and then nothing, from bytes as from characters.  The tokens cover
the source. -/
theorem tokenize_tiled (source : Source) (lenient : Bool) :
    (∀ n, Cursor.machine.pull? n (Cursor.ofSource source lenient) =
        some ((List.range n).map ((tokenize source lenient).answers[·]?))) ∧
      (∀ n, Reader.machine.pull? n (Reader.ofSource source lenient) =
        some ((List.range n).map ((tokenize source lenient).answers[·]?))) ∧
      (tokenize source lenient).tokens.length ≤ source.text.length ∧
      source.Tiled (tokenize source lenient) := by
  have hfresh := Reader.ofSource_fresh source lenient
  have hpull := hfresh.pull?_eq
  have hrow := tokenize_inRow source lenient
  have hnonempty : ∀ t ∈ (tokenize source lenient).tokens, t.text ≠ "" := hfresh.text_ne_empty
  obtain ⟨rest, hahead, hnone, hsome⟩ := hfresh.exists_rest
  have htext : source.text =
      Token.concat (tokenize source lenient).tokens ++ String.ofList rest := by
    rw [← String.toList_inj, String.toList_append, String.toList_ofList]
    exact hahead
  have hcovers := fun t ht => hrow.covers htext (t := t) ht
  refine ⟨fun n => ?_, hpull, ?_, ?_⟩
  · rw [(Cursor.ofSource_tracks source lenient).pull?_eq]
    exact hpull n
  · rw [htext, String.length_append]
    exact (Token.length_le_length_concat hnonempty).trans (Nat.le_add_right _ _)
  · exact
      { nonempty := hnonempty
        first := fun t ht => hrow.start_eq ht
        adjacent := hrow.isChain
        sliced := fun t ht => (hcovers t ht).slice?_eq
        boundaries := fun t ht =>
          ⟨(hcovers t ht).fitsIn.start.isBoundary, (hcovers t ht).fitsIn.stop.isBoundary⟩
        whole := fun hfailure => by
          rw [htext, hnone hfailure]
          simp
        before := fun e he => by
          obtain ⟨hne, hplace⟩ := hsome e he
          have hoffset : e.position.offset =
              (Token.concat (tokenize source lenient).tokens).utf8ByteSize := by
            rw [hplace, Position.advance_offset]
            exact Nat.zero_add _
          have hsize : source.size = e.position.offset + utf8Len rest := by
            rw [hoffset, Source.size, htext, String.utf8ByteSize_append, String.utf8ByteSize_ofList]
          have hpos := mt String.utf8Len_eq_zero.mp hne
          exact ⟨by omega, by rw [hoffset, Source.take_bytes htext]⟩ }

open Machine (mixedSheet) in
/-- The string of the sheet has no end: strictly the tokens stop in front of it, leniently it is one
more token. -/
theorem tokenize_tiled_mixedSheet :
    (tokenize mixedSheet false).failure = some ⟨.string, 15, 3, 6⟩ ∧
      encode (Token.concat (tokenize mixedSheet false).tokens).toList = mixedSheet.bytes.take 15 ∧
      (tokenize mixedSheet true).failure = none ∧
      Token.concat (tokenize mixedSheet true).tokens = mixedSheet.text := by
  have hfailure : (tokenize mixedSheet false).failure = some ⟨.string, 15, 3, 6⟩ := by
    decide +kernel
  have hnone : (tokenize mixedSheet true).failure = none := by decide +kernel
  obtain ⟨-, -, -, hstrict⟩ := tokenize_tiled mixedSheet false
  obtain ⟨-, -, -, hlenient⟩ := tokenize_tiled mixedSheet true
  exact ⟨hfailure, (hstrict.before _ hfailure).2, hnone, hlenient.whole hnone⟩

end LosslessCss
