import LosslessCss.Proofs.Cursor

/-!
# Sessions

Whoever reads tokens may ask for the next one, hand tokens back and move to any offset, in any
order.  A session is a list of such requests, and each of them has a reply: the answer, if a token
was asked for, and the place where the reading goes on.

Readers and cursors give the same replies, so each place that comes up in a session is one that
the cursor has kept in step while it went along, stretch by stretch.  It is also the place that the
table of the lines has at the same offset (`Source.Finds`).

## Main Definitions

* `Request`, `Reply` : what a session consists of
* `Machine`, `Reader.machine`, `Cursor.machine`, `Machine.run?` : sessions with readers and cursors
* `Source.Finds` : a place that is known by its offset

## Main Statements

* `Reader.Sound.next` : what a reader hands out stands in its source
* `Machine.run_places` : all places of a session
-/

namespace LosslessCss

/-! ### Requests and replies -/

/-- What can be asked for. -/
inductive Request where
  | next
  /-- Hand back the token with this index among those that are known. -/
  | handBack (index : Nat)
  | seek (offset : Nat)
  deriving DecidableEq, Repr

/-- What comes of a request: the answer, if a token was asked for, and the place behind it. -/
structure Reply where
  answer : Option (Except LexicalError Token)
  position : Position
  deriving DecidableEq, Repr

/-- **A way to read tokens.**  Asking for a token may have no outcome. -/
structure Machine (σ : Type) where
  next? : σ → Option (Option (Except LexicalError Token) × σ)
  handBack : σ → Token → σ
  seek : σ → Nat → σ
  position : σ → Position

/-- Reading from characters. -/
def Reader.machine : Machine Reader where
  next? r := some r.next
  handBack := Reader.handBack
  seek := Reader.seek
  position := Reader.position

/-- Reading from bytes. -/
def Cursor.machine : Machine Cursor where
  next? := Cursor.next?
  handBack := Cursor.handBack
  seek := Cursor.seek
  position := Cursor.position

namespace Machine

variable {σ : Type}

/-- Serves one request; an index that no known token has changes nothing. -/
def serve? (m : Machine σ) (s : σ) (known : List Token) :
    Request → Option (Option (Except LexicalError Token) × σ)
  | .next => m.next? s
  | .handBack index => some (none, (known[index]?.map (m.handBack s)).getD s)
  | .seek offset => some (none, m.seek s offset)

/-- The tokens that are known behind an answer. -/
def learn (known : List Token) : Option (Except LexicalError Token) → List Token
  | some (.ok t) => known ++ [t]
  | _ => known

/-- **A session**, with tokens that are known at first and the requests in order. -/
def run? (m : Machine σ) : σ → List Token → List Request → Option (List Reply)
  | _, _, [] => some []
  | s, known, request :: requests =>
    (m.serve? s known request).bind fun (answer, s) =>
      (m.run? s (learn known answer) requests).map fun replies => ⟨answer, m.position s⟩ :: replies

variable {m : Machine σ} {s s' : σ} {known : List Token} {request : Request}
  {requests : List Request} {answer : Option (Except LexicalError Token)} {replies : List Reply}

theorem run?_cons (hserve : m.serve? s known request = some (answer, s'))
    (hrun : m.run? s' (learn known answer) requests = some replies) :
    m.run? s known (request :: requests) = some (⟨answer, m.position s'⟩ :: replies) := by
  simp only [run?, hserve, Option.bind_some, hrun, Option.map_some]

theorem length_of_run? (hrun : m.run? s known requests = some replies) :
    replies.length = requests.length := by
  induction requests generalizing s known replies with
  | nil => exact Option.some.inj hrun ▸ rfl
  | cons request requests ih =>
    obtain ⟨⟨answer, s'⟩, -, hserved⟩ := Option.bind_eq_some_iff.mp hrun
    obtain ⟨rest, hrest, rfl⟩ := Option.map_eq_some_iff.mp hserved
    rw [List.length_cons, ih hrest, List.length_cons]

end Machine

/-! ### Places of a source -/

namespace Source

/-- What is answered stands in the source. -/
def Holds (s : Source) : Option (Except LexicalError Token) → Prop
  | none => True
  | some (.ok t) => t.span.FitsIn s
  | some (.error e) => s.IsPlace e.position

/-- **A place that is known by its offset.**  Its line and column are not more than bytes, so they
have room where the size of the source has. -/
structure Finds (s : Source) (p : Position) : Prop where
  lookUp : s.lookUp p.offset = p
  positionAt : s.positionAt p.offset = p
  inside : p.offset ≤ s.size
  narrow : p.line + p.column ≤ p.offset + 2

theorem IsPlace.offset_le {s : Source} {p : Position} (hp : s.IsPlace p) : p.offset ≤ s.size := by
  obtain ⟨front, behind, htext, rfl⟩ := hp
  rw [Position.advance_offset, size, htext, String.utf8ByteSize_append, Position.start_offset]
  omega

theorem IsPlace.finds {s : Source} {p : Position} (hp : s.IsPlace p) : s.Finds p where
  lookUp := (s.positionAt_eq_lookUp p.offset).symm.trans hp.positionAt_offset
  positionAt := hp.positionAt_offset
  inside := hp.offset_le
  narrow := hp.line_add_column_le

end Source

/-! ### What readers hand out -/

namespace Reader

variable {r : Reader}

/-- **A reader and what was handed back to it stand in the source.** -/
structure Sound (r : Reader) : Prop where
  placed : r.Placed
  returned : ∀ t ∈ r.returned, t.span.FitsIn r.source

theorem Sound.ofSource (source : Source) (lenient : Bool) : (ofSource source lenient).Sound :=
  ⟨.ofSource source lenient, by simp [Reader.ofSource]⟩

/-- A token that is read stands in the source, and the reader behind it. -/
theorem Sound.emit (h : r.Sound) (kind : Token.Kind) {text rest : List Char}
    (hahead : r.ahead = text ++ rest) : (r.emit kind text rest).1.span.FitsIn r.source ∧
      (r.emit kind text rest).2.Sound := by
  have hbehind := h.placed.emit kind hahead
  refine ⟨⟨rfl, h.placed.isPlace, hbehind.isPlace, ?_⟩, hbehind, h.returned⟩
  change r.position.offset ≤ (text.foldl Position.step r.position).offset
  rw [Position.foldl_step, Position.advance_offset]
  exact Nat.le_add_right _ _

/-- **What a reader hands out stands in its source.** -/
theorem Sound.next (h : r.Sound) :
    r.next.2.Sound ∧ r.next.2.source = r.source ∧ r.source.Holds r.next.1 := by
  cases hreturned : r.returned with
  | cons t ts =>
    have hfits := h.returned
    rw [hreturned] at hfits
    obtain ⟨ht, hts⟩ := List.forall_mem_cons.mp hfits
    simp only [Reader.next, hreturned]
    exact ⟨⟨h.placed, hts⟩, trivial, ht⟩
  | nil =>
    cases hfailed : r.failed with
    | true =>
      simp only [Reader.next, hreturned, hfailed, if_true]
      exact ⟨h, trivial, trivial⟩
    | false =>
      have hfresh : r.Fresh := ⟨hreturned, hfailed⟩
      cases hahead : r.ahead with
      | nil =>
        rw [hfresh.next_of_nil hahead]
        exact ⟨h, rfl, trivial⟩
      | cons c cs =>
        cases hscan : Token.scan r.mode c cs with
        | ok result =>
          obtain ⟨kind, n⟩ := result
          have hcut : r.ahead = c :: cs.take n ++ cs.drop n := by
            rw [hahead, List.cons_append, List.take_append_drop]
          rw [hfresh.next_of_scans hahead (Token.scan_eq_ok_iff.mp hscan)]
          exact ⟨(h.emit kind hcut).2, rfl, (h.emit kind hcut).1⟩
        | error cause =>
          cases hlenient : r.lenient with
          | true =>
            have hrest : r.ahead = c :: cs ++ [] := hahead.trans (List.append_nil _).symm
            rw [hfresh.next_of_error_of_lenient hahead hscan hlenient]
            exact ⟨(h.emit .word hrest).2, rfl, (h.emit .word hrest).1⟩
          | false =>
            rw [hfresh.next_of_error_of_strict hahead hscan hlenient]
            exact ⟨⟨h.placed, h.returned⟩, rfl, h.placed.isPlace⟩

theorem Sound.handBack (h : r.Sound) {t : Token} (ht : t.span.FitsIn r.source) :
    (r.handBack t).Sound :=
  ⟨h.placed, List.forall_mem_cons.mpr ⟨ht, h.returned⟩⟩

theorem Sound.seek (r : Reader) (offset : Nat) : (r.seek offset).Sound :=
  ⟨.seek r offset, by simp [Reader.seek]⟩

end Reader

/-! ### Sessions -/

namespace Machine

variable {c : Cursor} {r : Reader} {known : List Token}

/-- **One request** is served alike, and the answer stands in the source. -/
theorem exists_serve (h : c.Tracks r) (hr : r.Sound) (hknown : ∀ t ∈ known, t.span.FitsIn r.source)
    (request : Request) :
    ∃ answer c' r', Cursor.machine.serve? c known request = some (answer, c') ∧
      Reader.machine.serve? r known request = some (answer, r') ∧
        c'.Tracks r' ∧ r'.Sound ∧ r'.source = r.source ∧ r.source.Holds answer := by
  cases request with
  | next =>
    obtain ⟨c', hnext, htracks⟩ := h.next
    obtain ⟨hsound, hsource, hholds⟩ := hr.next
    exact ⟨_, c', _, hnext, rfl, htracks, hsound, hsource, hholds⟩
  | handBack index =>
    cases hindex : known[index]? with
    | none =>
      exact ⟨none, c, r, by simp [serve?, hindex], by simp [serve?, hindex], h, hr, rfl, trivial⟩
    | some t =>
      have ht := hknown t (List.mem_of_getElem? hindex)
      exact ⟨none, c.handBack t, r.handBack t, by simp [serve?, hindex, Cursor.machine],
        by simp [serve?, hindex, Reader.machine], h.handBack t, hr.handBack ht, rfl, trivial⟩
  | seek offset =>
    exact ⟨none, c.seek offset, r.seek offset, rfl, rfl, h.seek offset, .seek r offset, rfl,
      trivial⟩

/-- **A session goes alike** with a cursor and with a reader, and all that comes up in it stands in
the source. -/
theorem exists_run (h : c.Tracks r) (hr : r.Sound) (hknown : ∀ t ∈ known, t.span.FitsIn r.source)
    (requests : List Request) :
    ∃ replies, Cursor.machine.run? c known requests = some replies ∧
      Reader.machine.run? r known requests = some replies ∧
        ∀ reply ∈ replies, r.source.IsPlace reply.position ∧ r.source.Holds reply.answer := by
  induction requests generalizing c r known with
  | nil => exact ⟨[], rfl, rfl, by simp⟩
  | cons request requests ih =>
    obtain ⟨answer, c', r', hserve, hserve', htracks, hsound, hsource, hholds⟩ :=
      exists_serve h hr hknown request
    have hknown' : ∀ t ∈ learn known answer, t.span.FitsIn r'.source := by
      rw [hsource]
      intro t ht
      unfold learn at ht
      split at ht
      · rcases List.mem_append.mp ht with ht | ht
        · exact hknown t ht
        · exact List.mem_singleton.mp ht ▸ hholds
      · exact hknown t ht
    obtain ⟨replies, hrun, hrun', hall⟩ := ih htracks hsound hknown'
    have hplace : r.source.IsPlace r'.position := hsource ▸ hsound.placed.isPlace
    rw [hsource] at hall
    have hwhole := run?_cons hserve hrun
    rw [show Cursor.machine.position c' = r'.position from htracks.position] at hwhole
    exact ⟨_, hwhole, run?_cons hserve' hrun', List.forall_mem_cons.mpr ⟨⟨hplace, hholds⟩, hall⟩⟩

/-- **All places of a session are known by their offsets.**  Whatever is asked for, in whatever
order, the cursor has a reply to each request, and it is the one of the reader.  The place behind
each request, both ends of each token and the place of each error are those that the table of the
lines has at their offsets. -/
theorem run_places (source : Source) (lenient : Bool)
    (hknown : ∀ t ∈ known, t.span.FitsIn source) (requests : List Request) :
    ∃ replies, Cursor.machine.run? (Cursor.ofSource source lenient) known requests = some replies ∧
      Reader.machine.run? (Reader.ofSource source lenient) known requests = some replies ∧
      replies.length = requests.length ∧
      ∀ reply ∈ replies, source.Finds reply.position ∧
        (∀ t, reply.answer = some (.ok t) →
          t.span.source = source.id ∧ source.Finds t.start ∧ source.Finds t.stop) ∧
        ∀ e, reply.answer = some (.error e) → source.Finds e.position := by
  obtain ⟨replies, hrun, hrun', hall⟩ :=
    exists_run (Cursor.ofSource_tracks source lenient) (.ofSource source lenient) hknown requests
  refine ⟨replies, hrun, hrun', length_of_run? hrun', fun reply hreply => ?_⟩
  obtain ⟨hplace, hholds⟩ := hall reply hreply
  refine ⟨hplace.finds, fun t ht => ?_, fun e he => ?_⟩
  · rw [ht] at hholds
    have hfits : t.span.FitsIn source := hholds
    exact ⟨hfits.source, hfits.start.finds, hfits.stop.finds⟩
  · rw [he] at hholds
    exact Source.IsPlace.finds hholds

/-- Characters of several bytes, a comment on two lines, and a string without an end. -/
def mixedSheet : Source where
  text := "é\n/*\n中*/\\中\"x"

/-- Reads ahead, goes back by one token, moves into a character and reads to the error and on. -/
def mixedRequests : List Request :=
  [.next, .next, .next, .handBack 1, .next, .next, .seek 8, .next, .next, .next]

theorem run_places_mixedSheet :
    ∃ replies, Cursor.machine.run? (Cursor.ofSource mixedSheet false) [] mixedRequests =
        some replies ∧
      replies.map Reply.position = [⟨2, 1, 2⟩, ⟨3, 2, 1⟩, ⟨11, 3, 4⟩, ⟨11, 3, 4⟩, ⟨11, 3, 4⟩,
        ⟨15, 3, 6⟩, ⟨6, 3, 1⟩, ⟨15, 3, 6⟩, ⟨15, 3, 6⟩, ⟨15, 3, 6⟩] ∧
      ∀ reply ∈ replies, mixedSheet.lookUp reply.position.offset = reply.position := by
  have hnone : ∀ t ∈ ([] : List Token), t.span.FitsIn mixedSheet := by simp
  obtain ⟨replies, hrun, hrun', -, hall⟩ := run_places mixedSheet false hnone mixedRequests
  have hplaces : (Reader.machine.run? (Reader.ofSource mixedSheet false) [] mixedRequests).map
      (·.map Reply.position) = some [⟨2, 1, 2⟩, ⟨3, 2, 1⟩, ⟨11, 3, 4⟩, ⟨11, 3, 4⟩, ⟨11, 3, 4⟩,
        ⟨15, 3, 6⟩, ⟨6, 3, 1⟩, ⟨15, 3, 6⟩, ⟨15, 3, 6⟩, ⟨15, 3, 6⟩] := by
    decide +kernel
  rw [hrun', Option.map_some] at hplaces
  exact ⟨replies, hrun, Option.some.inj hplaces, fun reply hreply => (hall reply hreply).1.lookUp⟩

end Machine

end LosslessCss
