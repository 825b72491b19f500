import LosslessCss.Proofs.LineTable

/-!
# Reading tokens from bytes

A `Reader` goes through the characters of a source.  A `Cursor` reads the same tokens from its
bytes, and all that it knows of the characters is where it stands: it keeps an offset with line and
column, cuts each token out of the source at two offsets, and passes the bytes in between.  Of the
past it remembers two things, where a word `url` has ended and whether an unquoted address comes
next.

A cursor that came to stand inside a character could not cut out its next token.  It never does
(`Cursor.Tracks.next`): whatever is asked of them, the cursor and the reader give the same answers
and stand at the same places.

## Main Definitions

* `Cursor`, `Cursor.next?`, `Cursor.seek` : reading from bytes
* `Reader.Placed` : a reader that stands in its source
* `Cursor.Tracks` : a cursor and a reader in the same state

## Main Statements

* `Cursor.Tracks.next`, `Cursor.Tracks.seek` : both go on alike
-/

namespace LosslessCss

open String (utf8Len utf8Len_nil utf8Len_cons utf8Len_append)
open Text (encode spell isContinuation)

/-! ### Cursors -/

/-- A place in the bytes of a source from which tokens are read. -/
structure Cursor where
  source : Source
  /-- Take an unclosed text for a word. -/
  lenient : Bool
  /-- The place in front of the next new token. -/
  position : Position
  /-- Where the token just read ends, if it was a word `url`. -/
  urlEnd : Option Nat
  /-- The next token is an unquoted address. -/
  inAddress : Bool
  /-- Tokens handed back, the latest first. -/
  returned : List Token
  /-- An error was reported. -/
  failed : Bool
  deriving DecidableEq, Repr

namespace Cursor

/-- A cursor at the start of a source. -/
def ofSource (source : Source) (lenient : Bool) : Cursor where
  source := source
  lenient := lenient
  position := .start
  urlEnd := none
  inAddress := false
  returned := []
  failed := false

/-- Hands a token back: it is the next one to come out. -/
def handBack (c : Cursor) (t : Token) : Cursor := { c with returned := t :: c.returned }

/-- Reads the bytes in front of an offset as a token of the given kind.  There is none if the offset
lies inside a character. -/
def emit? (c : Cursor) (kind : Token.Kind) (stop : Nat) : Option (Token × Cursor) := do
  let text ← c.source.slice? c.source.id c.position.offset stop
  let chunk := (c.source.bytes.drop c.position.offset).take (stop - c.position.offset)
  let place := c.position.pass chunk
  return ({ kind := kind, text := text, span := ⟨c.source.id, c.position, place⟩ },
    { c with position := place })

/-- What is remembered of a token that was read: an opening parenthesis may open an address, and a
word may be `url`, which the address itself is not. -/
def remember (c : Cursor) (kind : Token.Kind) (text : List Char) (opens : Bool) : Cursor :=
  { c with
    inAddress := kind == .parenOpen && opens
    urlEnd :=
      if !c.inAddress && (kind == .word && Text.eqIgnoringCase text ['u', 'r', 'l']) then
        some c.position.offset
      else none }

/-- The cursor in front of a text that is not closed. -/
def abandon (c : Cursor) : Cursor :=
  { c with inAddress := false, urlEnd := if c.inAddress then none else c.urlEnd }

/-- Reads a token where bytes are ahead. -/
def read? (c : Cursor) (b : Char) (bs : List Char) :
    Option (Option (Except LexicalError Token) × Cursor) :=
  match Token.scan (if c.inAddress then .address else .plain) b bs with
  | .ok (kind, n) =>
    let opens := c.urlEnd == some c.position.offset && bs.head?.any Token.startsAddress
    (c.emit? kind (c.position.offset + (n + 1))).map fun (t, behind) =>
      (some (.ok t), behind.remember kind t.text.toList opens)
  | .error cause =>
    if c.lenient then
      (c.abandon.emit? .word c.source.bytes.length).map fun (t, behind) => (some (.ok t), behind)
    else some (some (.error ⟨cause, c.position⟩), { c.abandon with failed := true })

/-- **The next token**, an error, or nothing at the end.  There is no answer at all if the token
would end inside a character. -/
def next? (c : Cursor) : Option (Option (Except LexicalError Token) × Cursor) :=
  match c.returned with
  | t :: ts => some (some (.ok t), { c with returned := ts })
  | [] =>
    if c.failed then some (none, c)
    else
      match (c.source.bytes.drop c.position.offset).map Text.ofByte with
      | [] => some (none, c)
      | b :: bs => c.read? b bs

/-- The offset lies between two characters or at an end. -/
def isBoundary (bs : List UInt8) (n : Nat) : Bool :=
  n == 0 || n == bs.length || bs[n]?.any fun b => !isContinuation b

/-- The last boundary that does not lie behind an offset. -/
def boundaryBefore (bs : List UInt8) : Nat → Nat
  | 0 => 0
  | n + 1 => if isBoundary bs (n + 1) then n + 1 else boundaryBefore bs n

/-- Moves to a byte offset, or to the last boundary in front of it.  Nothing of the past counts any
longer. -/
def seek (c : Cursor) (offset : Nat) : Cursor :=
  let offset := boundaryBefore c.source.bytes (min offset c.source.bytes.length)
  { c with
    position := Position.start.pass (c.source.bytes.take offset)
    urlEnd := none
    inAddress := false
    returned := []
    failed := false }

end Cursor

/-! ### Readers in their sources -/

namespace Reader

/-- **A reader stands in its source**: its place is reached by passing the text in front of it, and
the text ahead is what follows. -/
def Placed (r : Reader) : Prop :=
  ∃ front, r.source.text.toList = front ++ r.ahead ∧ r.position = front.foldl Position.step .start

variable {r : Reader}

namespace Placed

theorem ofSource (source : Source) (lenient : Bool) : (ofSource source lenient).Placed :=
  ⟨[], rfl, rfl⟩

theorem isPlace (h : r.Placed) : r.source.IsPlace r.position := by
  obtain ⟨front, htext, hplace⟩ := h
  refine ⟨String.ofList front, String.ofList r.ahead, ?_, ?_⟩
  · rw [← String.ofList_append, ← htext, String.ofList_toList]
  · rw [hplace, Position.foldl_step]

/-- The bytes behind the place are those of the text ahead. -/
theorem drop_bytes (h : r.Placed) : r.source.bytes.drop r.position.offset = encode r.ahead := by
  obtain ⟨front, htext, hplace⟩ := h
  rw [Source.bytes, htext, hplace, Position.foldl_step, Position.advance_offset,
    String.utf8ByteSize_ofList, Position.start_offset, Nat.zero_add, Text.drop_encode_append]

theorem length_bytes (h : r.Placed) :
    r.source.bytes.length = r.position.offset + utf8Len r.ahead := by
  obtain ⟨front, htext, hplace⟩ := h
  rw [hplace, Position.foldl_step, Position.advance_offset, String.utf8ByteSize_ofList,
    Source.bytes, Text.length_encode, htext, utf8Len_append, Position.start_offset, Nat.zero_add]

/-- Behind a token that was read the reader stands in its source. -/
theorem emit (h : r.Placed) (kind : Token.Kind) {text rest : List Char}
    (hahead : r.ahead = text ++ rest) : (r.emit kind text rest).2.Placed := by
  obtain ⟨front, htext, hplace⟩ := h
  refine ⟨front ++ text, ?_, ?_⟩
  · change r.source.text.toList = front ++ text ++ rest
    rw [htext, hahead, List.append_assoc]
  · rw [List.foldl_append, ← hplace]
    rfl

theorem seek (r : Reader) (offset : Nat) : (r.seek offset).Placed :=
  ⟨(Source.cutBefore offset r.source.text.toList).1, (Source.cutBefore_append _ _).symm, rfl⟩

end Placed

end Reader

/-! ### Cursors and readers -/

namespace Cursor

variable {c : Cursor} {r : Reader}

/-- The cursor remembers of the past what the mode of the reader says about the next character. -/
structure Recalls (c : Cursor) (mode : Token.Mode) (next : Char) : Prop where
  address : c.inAddress = true ↔ mode = .address
  url : next = '(' → (c.urlEnd = some c.position.offset ↔ mode = .behindUrl)

/-- **The cursor and the reader are in the same state.**  What is remembered makes no difference
where nothing more is to be read. -/
structure Tracks (c : Cursor) (r : Reader) : Prop where
  source : c.source = r.source
  lenient : c.lenient = r.lenient
  position : c.position = r.position
  returned : c.returned = r.returned
  failed : c.failed = r.failed
  placed : r.Placed
  recalls : r.failed = false → ∀ next ∈ r.ahead.head?, c.Recalls r.mode next

theorem ofSource_tracks (source : Source) (lenient : Bool) :
    (ofSource source lenient).Tracks (Reader.ofSource source lenient) where
  source := rfl
  lenient := rfl
  position := rfl
  returned := rfl
  failed := rfl
  placed := .ofSource source lenient
  recalls _ _ _ :=
    ⟨by simp [ofSource, Reader.ofSource], fun _ => by simp [ofSource, Reader.ofSource]⟩

/-- **A stretch of characters is cut out by its bytes.** -/
theorem emit?_eq (hsource : c.source = r.source) (hposition : c.position = r.position)
    (hplaced : r.Placed) (kind : Token.Kind) {text rest : List Char}
    (hahead : r.ahead = text ++ rest) :
    c.emit? kind (c.position.offset + utf8Len text) = some ((r.emit kind text rest).1,
      { c with position := (r.emit kind text rest).2.position }) := by
  obtain ⟨front, htext, hplace⟩ := id hplaced
  have hcovers : (⟨r.source.id, r.position, r.position.advance (String.ofList text)⟩ : Span).Covers
      r.source (String.ofList text) := by
    refine ⟨String.ofList front, String.ofList rest, ?_, ?_⟩
    · rw [← String.ofList_append, ← String.ofList_append, List.append_assoc, ← hahead, ← htext,
        String.ofList_toList]
    · rw [Position.advance_append, ← Position.foldl_step .start front, ← hplace]
  have hslice := hcovers.slice?_eq
  rw [Position.advance_offset, String.utf8ByteSize_ofList] at hslice
  have hchunk : ((c.source.bytes.drop c.position.offset).take
      (c.position.offset + utf8Len text - c.position.offset)) = encode text := by
    rw [hsource, hposition, hplaced.drop_bytes, hahead, Nat.add_sub_cancel_left,
      Text.take_encode_append]
  rw [emit?, hchunk, hsource, hposition]
  simp only [hslice, Position.pass_encode]
  rfl

/-- Of the mode the scan wants to know only whether an address starts here. -/
theorem scan_eq {mode : Token.Mode} {address : Bool} (hmode : address = true ↔ mode = .address)
    (next : Char) (cs : List Char) :
    Token.scan (if address then .address else .plain) next cs = Token.scan mode next cs := by
  by_cases haddress : mode = .address
  · rw [if_pos (hmode.mpr haddress), haddress]
  · rw [if_neg fun h => haddress (hmode.mp h)]
    simp [Token.scan, haddress]

/-- An address ends in front of its closing parenthesis. -/
theorem head?_drop_of_scanAddress {first : Char} {cs : List Char} {n : Nat}
    (h : Token.scanAddress first cs = some n) : (cs.drop n).head? = some ')' := by
  have hlength : (cs.take n).length = n :=
    List.length_take_of_le (Token.scanAddress_le_length h)
  have hcut : Token.scanAddress first (cs.take n ++ cs.drop n) = some (cs.take n).length := by
    rw [List.take_append_drop, hlength, h]
  exact (Token.scanAddress_append_eq_length_iff.mp hcut).2

/-- **What is remembered of a token** says of the next character what the mode behind the token
does. -/
theorem remember_recalls {mode : Token.Mode} {first : Char} {cs : List Char} {kind : Token.Kind}
    {n : Nat} (hrecalls : c.Recalls mode first) (hscans : Token.Scans first cs mode kind n)
    (place : Position) {opens : Bool}
    (hopens : kind = .parenOpen → opens =
      (c.urlEnd == some c.position.offset && cs.head?.any Token.startsAddress)) :
    ∀ next ∈ (cs.drop n).head?,
      (remember { c with position := place } kind (first :: cs.take n) opens).Recalls
        (mode.after kind (first :: cs.take n) (cs.drop n)) next := by
  intro next hnext
  rw [Token.Mode.after]
  by_cases hparen : kind = .parenOpen
  · subst hparen
    have hurl := hrecalls.url hscans.kind_eq_parenOpen
    rw [hscans.reach_eq_zero_of_parenOpen, hopens rfl, List.drop_zero]
    constructor
    · rw [remember]
      by_cases hmode : mode = .behindUrl <;> simp [hurl, hmode]
    · -- A parenthesis is no word.
      intro _
      by_cases haddress : mode = .behindUrl ∧ cs.head?.any Token.startsAddress = true <;>
        simp [remember, haddress]
  · have hkind : (kind == Token.Kind.parenOpen) = false := beq_eq_false_iff_ne.mpr hparen
    rw [if_neg fun h => hparen h.1]
    constructor
    · by_cases hurl : kind = .word ∧
          Text.eqIgnoringCase (first :: cs.take n) ['u', 'r', 'l'] = true <;>
        simp [remember, hkind, hurl]
    · rintro rfl
      have hno : c.inAddress = false := by
        by_contra haddress
        obtain rfl := hrecalls.address.mp (Bool.eq_true_of_not_eq_false haddress)
        cases hscans with
        | address hreach =>
          rw [head?_drop_of_scanAddress hreach] at hnext
          cases hnext
        | _ => contradiction
      rw [remember, hno]
      split <;> simp_all

theorem next?_eq_read? (hreturned : c.returned = []) (hfailed : c.failed = false) {b : Char}
    {bs : List Char}
    (hbytes : (c.source.bytes.drop c.position.offset).map Text.ofByte = b :: bs) :
    c.next? = c.read? b bs := by
  rw [next?, hreturned, hfailed, hbytes]
  rfl

/-- **A new token** is read alike. -/
theorem Tracks.read (h : c.Tracks r) (hfresh : r.Fresh) {first : Char} {cs : List Char}
    (hahead : r.ahead = first :: cs) {b : Char} {others : List Char}
    (hspelled : Text.Spelled first b others) :
    ∃ c', c.read? b (others ++ spell cs) = some (r.next.1, c') ∧ c'.Tracks r.next.2 := by
  have hrecalls := h.recalls hfresh.failed first (by rw [hahead]; rfl)
  have hscan := Token.scan_spell hspelled cs r.mode
  rw [← scan_eq hrecalls.address] at hscan
  cases hresult : Token.scan r.mode first cs with
  | error cause =>
    rw [hresult] at hscan
    rw [read?, hscan, Except.map]
    cases hlenient : r.lenient with
    | false =>
      have hlenient' : c.lenient = false := h.lenient.trans hlenient
      rw [hfresh.next_of_error_of_strict hahead hresult hlenient]
      refine ⟨{ c.abandon with failed := true }, by simp [hlenient', h.position], ?_⟩
      exact { h with failed := rfl, recalls := nofun }
    | true =>
      have hlenient' : c.lenient = true := h.lenient.trans hlenient
      have hstop : c.source.bytes.length = c.position.offset + utf8Len (first :: cs) := by
        rw [h.source, h.position, h.placed.length_bytes, hahead]
      have hrest : r.ahead = first :: cs ++ [] := hahead.trans (List.append_nil _).symm
      have hemit : c.abandon.emit? .word c.source.bytes.length = _ :=
        hstop ▸ emit?_eq (c := c.abandon) h.source h.position h.placed .word hrest
      rw [hfresh.next_of_error_of_lenient hahead hresult hlenient]
      refine ⟨_, by simp only [hlenient', if_true, hemit, Option.map_some]; rfl, ?_⟩
      -- Nothing is ahead of the word that the rest was taken for.
      exact { h with
        position := rfl
        placed := h.placed.emit .word hrest
        recalls := nofun }
  | ok result =>
    obtain ⟨kind, n⟩ := result
    have hscans := Token.scan_eq_ok_iff.mp hresult
    have hcut : r.ahead = first :: cs.take n ++ cs.drop n := by
      rw [hahead, List.cons_append, List.take_append_drop]
    have hstop : Text.bytesOf cs n + others.length + 1 = utf8Len (first :: cs.take n) := by
      rw [utf8Len_cons, ← hspelled.size]
      rfl
    have hemit := emit?_eq h.source h.position h.placed kind hcut
    rw [← hstop] at hemit
    rw [hresult] at hscan
    rw [read?, hscan, Except.map, hfresh.next_of_scans hahead hscans]
    dsimp only
    rw [hemit, Option.map_some]
    have hopens (hparen : kind = .parenOpen) : (c.urlEnd == some c.position.offset &&
        (others ++ spell cs).head?.any Token.startsAddress) =
          (c.urlEnd == some c.position.offset && cs.head?.any Token.startsAddress) := by
      subst hparen
      obtain rfl := hscans.kind_eq_parenOpen
      obtain ⟨-, rfl⟩ := hspelled.start.resolve_right fun hhigh => absurd hhigh.1 (by decide)
      rw [List.nil_append, Text.any_head?_spell fun d hd => Token.startsAddress_of_high hd]
    have htext : (r.emit kind (first :: cs.take n) (cs.drop n)).1.text.toList =
        first :: cs.take n := String.toList_ofList
    rw [htext]
    refine ⟨_, rfl, ?_⟩
    exact { h with
      position := rfl
      placed := h.placed.emit kind hcut
      recalls := fun _ => remember_recalls hrecalls hscans _ hopens }

/-- **The cursor and the reader go on alike**: the cursor has an answer, which is that of the
reader. -/
theorem Tracks.next (h : c.Tracks r) :
    ∃ c', c.next? = some (r.next.1, c') ∧ c'.Tracks r.next.2 := by
  cases hreturned : r.returned with
  | cons t ts =>
    have hreturned' : c.returned = t :: ts := h.returned.trans hreturned
    refine ⟨{ c with returned := ts }, ?_, ?_⟩
    · simp only [next?, Reader.next, hreturned, hreturned']
    · simp only [Reader.next, hreturned]
      exact { h with
        returned := rfl
        recalls := fun hgoes next hnext =>
          ⟨(h.recalls hgoes next hnext).address, (h.recalls hgoes next hnext).url⟩ }
  | nil =>
    have hreturned' : c.returned = [] := h.returned.trans hreturned
    cases hfailed : r.failed with
    | true =>
      have hfailed' : c.failed = true := h.failed.trans hfailed
      refine ⟨c, ?_, ?_⟩
      · simp [next?, Reader.next, hreturned, hreturned', hfailed, hfailed']
      · simpa [Reader.next, hreturned, hfailed] using h
    | false =>
      have hfailed' : c.failed = false := h.failed.trans hfailed
      have hfresh : r.Fresh := ⟨hreturned, hfailed⟩
      cases hahead : r.ahead with
      | nil =>
        have hbytes : c.source.bytes.drop c.position.offset = [] := by
          rw [h.source, h.position, h.placed.drop_bytes, hahead, Text.encode_nil]
        rw [hfresh.next_of_nil hahead]
        exact ⟨c, by simp [next?, hreturned', hfailed', hbytes], h⟩
      | cons first cs =>
        obtain ⟨b, others, hspelled, hspell⟩ := Text.exists_spelled first
        have hbytes : (c.source.bytes.drop c.position.offset).map Text.ofByte =
            b :: (others ++ spell cs) := by
          rw [← hspell, h.source, h.position, h.placed.drop_bytes, hahead]
          rfl
        rw [next?_eq_read? hreturned' hfailed' hbytes]
        exact h.read hfresh hahead hspelled

theorem Tracks.handBack (h : c.Tracks r) (t : Token) : (c.handBack t).Tracks (r.handBack t) :=
  { h with
    returned := congrArg (t :: ·) h.returned
    recalls := fun hgoes next hnext =>
      ⟨(h.recalls hgoes next hnext).address, (h.recalls hgoes next hnext).url⟩ }

/-! ### Moving -/

/-- The last boundary is found by going back. -/
theorem boundaryBefore_eq {bs : List UInt8} {m n : Nat} (hle : m ≤ n)
    (hboundary : isBoundary bs m = true)
    (hinside : ∀ k, m < k → k ≤ n → isBoundary bs k = false) : boundaryBefore bs n = m := by
  induction n with
  | zero => exact (Nat.le_zero.mp hle).symm
  | succ n ih =>
    rcases hle.eq_or_lt with rfl | hlt
    · rw [boundaryBefore, if_pos hboundary]
    · rw [boundaryBefore, hinside (n + 1) hlt le_rfl]
      exact ih (Nat.le_of_lt_succ hlt) fun k hk hkn => hinside k hk (hkn.trans (Nat.le_succ n))

theorem getElem?_encode_append (front rest : List Char) (k : Nat) :
    (encode (front ++ rest))[utf8Len front + k]? = (encode rest)[k]? := by
  rw [Text.encode_append, List.getElem?_append_right (by simp), Text.length_encode,
    Nat.add_sub_cancel_left]

/-- Between two characters there is a boundary. -/
theorem isBoundary_encode_append (front rest : List Char) :
    isBoundary (encode (front ++ rest)) (utf8Len front) = true := by
  cases rest with
  | nil => simp [isBoundary]
  | cons next rest =>
    obtain ⟨lead, tail, hbytes, hlead, -⟩ := Text.exists_utf8EncodeChar next
    have hindex : (encode (front ++ next :: rest))[utf8Len front]? = some lead := by
      have hzero := getElem?_encode_append front (next :: rest) 0
      rwa [Text.encode_cons, hbytes] at hzero
    rw [isBoundary, hindex, Option.any_some, hlead]
    simp

/-- Inside a character there is none. -/
theorem not_isBoundary_of_inside (front : List Char) (next : Char) (rest : List Char) {k : Nat}
    (hpos : 0 < k) (hk : k < next.utf8Size) :
    isBoundary (encode (front ++ next :: rest)) (utf8Len front + k) = false := by
  obtain ⟨lead, tail, hbytes, -, htail⟩ := Text.exists_utf8EncodeChar next
  obtain ⟨j, rfl⟩ := Nat.exists_eq_succ_of_ne_zero hpos.ne'
  have hlength := String.length_utf8EncodeChar next
  rw [hbytes, List.length_cons] at hlength
  have hj : j < tail.length := by omega
  have hindex : (encode (front ++ next :: rest))[utf8Len front + (j + 1)]? = some tail[j] := by
    rw [getElem?_encode_append, Text.encode_cons, hbytes, List.cons_append, List.getElem?_cons_succ,
      List.getElem?_append_left hj, List.getElem?_eq_getElem hj]
  have hend : utf8Len front + (j + 1) ≠ (encode (front ++ next :: rest)).length := by
    rw [Text.length_encode, utf8Len_append, utf8Len_cons]
    omega
  rw [isBoundary, hindex, Option.any_some, htail _ (List.getElem_mem hj)]
  simpa using hend

/-- Where a text is cut in front of an offset. -/
theorem cutBefore_spec (n : Nat) (cs : List Char) :
    utf8Len (Source.cutBefore n cs).1 ≤ n ∧ ∀ next ∈ (Source.cutBefore n cs).2.head?,
      n < utf8Len (Source.cutBefore n cs).1 + next.utf8Size := by
  fun_induction Source.cutBefore n cs with
  | case1 => simp
  | case2 n c cs hshort => simpa using hshort
  | case3 n c cs hfits front rest hcut ih =>
    rw [hcut] at ih
    obtain ⟨hle, hnext⟩ := ih
    dsimp only at hle hnext ⊢
    rw [utf8Len_cons]
    refine ⟨by omega, fun next hmem => ?_⟩
    have hshort := hnext next hmem
    omega

/-- **Going back to a boundary** cuts the text between the same characters. -/
theorem boundaryBefore_encode (n : Nat) (cs : List Char) :
    boundaryBefore (encode cs) (min n (encode cs).length) =
      utf8Len (Source.cutBefore n cs).1 := by
  obtain ⟨hle, hnext⟩ := cutBefore_spec n cs
  have hcut := Source.cutBefore_append n cs
  generalize (Source.cutBefore n cs).1 = front at hle hnext hcut
  generalize (Source.cutBefore n cs).2 = rest at hnext hcut
  subst hcut
  have hlength : (encode (front ++ rest)).length = utf8Len front + utf8Len rest := by
    rw [Text.length_encode, utf8Len_append]
  refine boundaryBefore_eq (by omega) (isBoundary_encode_append front rest) fun k hk hkn => ?_
  cases rest with
  | nil =>
    rw [utf8Len_nil] at hlength
    omega
  | cons next rest =>
    have hshort := hnext next rfl
    obtain ⟨j, rfl⟩ := Nat.exists_eq_add_of_lt hk
    exact not_isBoundary_of_inside front next rest (Nat.succ_pos j) (by omega)

/-- **The cursor and the reader move alike.** -/
theorem Tracks.seek (h : c.Tracks r) (offset : Nat) : (c.seek offset).Tracks (r.seek offset) where
  source := h.source
  lenient := h.lenient
  position := by
    have hcut := Source.cutBefore_append offset r.source.text.toList
    have hfront := Text.take_encode_append (Source.cutBefore offset r.source.text.toList).1
      (Source.cutBefore offset r.source.text.toList).2
    rw [hcut] at hfront
    simp only [Cursor.seek, h.source, Source.bytes, boundaryBefore_encode, hfront,
      Position.pass_encode]
    rfl
  returned := rfl
  failed := rfl
  placed := .seek r offset
  recalls _ next _ := ⟨by simp [Cursor.seek, Reader.seek], fun _ => by
    simp [Cursor.seek, Reader.seek]⟩

end Cursor

end LosslessCss
