import LosslessCss.Proofs.Tiling
import LosslessCss.Proofs.Shifting

/-!
# A session is a recording that is played

However a session goes, what is newly read in it was determined when the reader was last moved.  Let
a fresh reader go through the text behind that place, without any of the text in front of it, and
write down all that it answers, the error included.  From then on the session plays this recording:
each new answer is the next one of the recording, and it does not matter how many tokens were handed
back in between, or what was read, or went wrong, before the reader was moved.

So there are three ways to serve a session, from bytes, from characters and from recordings, and
they give the same replies.

## Main Definitions

* `Playback`, `Playback.machine` : sessions from recordings
* `Machine.reach?` : the state that a session leads to
* `Machine.Simulates` : two machines in step
* `Playback.Plays` : a recording of what a reader has to say

## Main Statements

* `Machine.Simulates.exists_run` : machines in step give the same replies
* `Playback.simulates` : a recording goes in step with a reader
* `Reader.hasNext_eq`, `Cursor.Tracks.hasNext_eq` : whether there is something to come
* `Machine.run_playback`
-/

namespace LosslessCss

/-! ### Machines in step -/

namespace Machine

variable {σ τ : Type}

/-- **The state that a session leads to.** -/
def reach? (m : Machine σ) : σ → List Token → List Request → Option σ
  | s, _, [] => some s
  | s, known, request :: requests =>
    (m.serve? s known request).bind fun (answer, s) => m.reach? s (learn known answer) requests

/-- **Two machines in step**: they have the same answers, and stand at the same places. -/
structure Simulates (m : Machine σ) (m' : Machine τ) (R : σ → τ → Prop) : Prop where
  next : ∀ {s t}, R s t → ∃ answer s' t', m.next? s = some (answer, s') ∧
    m'.next? t = some (answer, t') ∧ R s' t'
  handBack : ∀ {s t}, R s t → ∀ token, R (m.handBack s token) (m'.handBack t token)
  seek : ∀ {s t}, R s t → ∀ offset, R (m.seek s offset) (m'.seek t offset)
  position : ∀ {s t}, R s t → m.position s = m'.position t

namespace Simulates

variable {m : Machine σ} {m' : Machine τ} {R : σ → τ → Prop} {s : σ} {t : τ}

/-- **One request** is served alike. -/
theorem exists_serve (h : m.Simulates m' R) (hst : R s t) (known : List Token)
    (request : Request) : ∃ answer s' t', m.serve? s known request = some (answer, s') ∧
      m'.serve? t known request = some (answer, t') ∧ R s' t' := by
  cases request with
  | next => exact h.next hst
  | handBack index =>
    cases hindex : known[index]? with
    | none => exact ⟨none, s, t, by simp [serve?, hindex], by simp [serve?, hindex], hst⟩
    | some token =>
      exact ⟨none, m.handBack s token, m'.handBack t token, by simp [serve?, hindex],
        by simp [serve?, hindex], h.handBack hst token⟩
  | seek offset => exact ⟨none, m.seek s offset, m'.seek t offset, rfl, rfl, h.seek hst offset⟩

/-- **Machines in step give the same replies**, and are in step behind them. -/
theorem exists_run (h : m.Simulates m' R) (hst : R s t) (known : List Token)
    (requests : List Request) :
    ∃ replies s' t', m.run? s known requests = some replies ∧
      m'.run? t known requests = some replies ∧ m.reach? s known requests = some s' ∧
        m'.reach? t known requests = some t' ∧ R s' t' := by
  induction requests generalizing s t known with
  | nil => exact ⟨[], s, t, rfl, rfl, rfl, rfl, hst⟩
  | cons request requests ih =>
    obtain ⟨answer, s₁, t₁, hserve, hserve', h₁⟩ := h.exists_serve hst known request
    obtain ⟨replies, s', t', hrun, hrun', hreach, hreach', hst'⟩ := ih h₁ (learn known answer)
    have hwhole := run?_cons hserve hrun
    rw [h.position h₁] at hwhole
    refine ⟨_, s', t', hwhole, run?_cons hserve' hrun', ?_, ?_, hst'⟩
    · simp only [reach?, hserve, Option.bind_some, hreach]
    · simp only [reach?, hserve', Option.bind_some, hreach']

end Simulates

end Machine

/-! ### Something to come -/

/-- There is another token, or an error to report. -/
def Cursor.hasNext (c : Cursor) : Bool :=
  !c.returned.isEmpty || (!c.failed && decide (c.position.offset < c.source.bytes.length))

/-- **A reader has something to come exactly if it answers.** -/
theorem Reader.hasNext_eq (r : Reader) : r.hasNext = r.next.1.isSome := by
  cases hreturned : r.returned with
  | cons => simp [hasNext, next, hreturned]
  | nil =>
    cases hfailed : r.failed with
    | true => simp [hasNext, next, hreturned, hfailed]
    | false =>
      have hfresh : r.Fresh := ⟨hreturned, hfailed⟩
      have hahead : r.hasNext = !r.ahead.isEmpty := by simp [hasNext, hreturned, hfailed]
      induction r, hfresh using Fresh.induction with
      | done r hfresh hnil => rw [hahead, hfresh.next_of_nil hnil, hnil]; rfl
      | failure r _ cause hne _ hnext => simp [hahead, hnext, hne]
      | token r _ kind text rest htext _ hcut hnext _ => simp [hahead, hnext, hcut, htext]

/-- A cursor has something to come exactly if a reader in the same state has. -/
theorem Cursor.Tracks.hasNext_eq {c : Cursor} {r : Reader} (h : c.Tracks r) :
    c.hasNext = r.hasNext := by
  have hbytes : decide (c.position.offset < c.source.bytes.length) = !r.ahead.isEmpty := by
    rw [h.position, h.source, h.placed.length_bytes]
    cases r.ahead with
    | nil => simp
    | cons d ds =>
      have hpos := d.utf8Size_pos
      rw [String.utf8Len_cons]
      exact decide_eq_true (by omega)
  rw [Cursor.hasNext, Reader.hasNext, h.returned, h.failed, hbytes]

/-- Cursors go in step with readers. -/
theorem Cursor.simulates : Reader.machine.Simulates Cursor.machine fun r c => c.Tracks r where
  next h := by
    obtain ⟨c', hnext, htracks⟩ := h.next
    exact ⟨_, _, c', rfl, hnext, htracks⟩
  handBack h token := h.handBack token
  seek h offset := h.seek offset
  position h := h.position.symm

/-! ### Recordings -/

/-- **A session from recordings.** -/
structure Playback where
  source : Source
  /-- Take an unclosed text for a word. -/
  lenient : Bool
  /-- What a fresh reader answers about the text behind the place that was last moved to. -/
  recording : List (Except LexicalError Token)
  /-- How many of these answers came out. -/
  played : Nat
  /-- The place in front of the next new token. -/
  position : Position
  /-- Tokens handed back, the latest first. -/
  returned : List Token

namespace Playback

/-- The recording of a whole source. -/
def ofSource (source : Source) (lenient : Bool) : Playback where
  source := source
  lenient := lenient
  recording := (tokenize source lenient).answers
  played := 0
  position := .start
  returned := []

/-- The place behind an answer. -/
def behind (p : Position) : Except LexicalError Token → Position
  | .ok t => t.stop
  | .error _ => p

/-- **What was handed back comes first**, the latest first, and then the next answer of the
recording. -/
def next (p : Playback) : Option (Except LexicalError Token) × Playback :=
  match p.returned with
  | t :: ts => (some (.ok t), { p with returned := ts })
  | [] =>
    match p.recording[p.played]? with
    | none => (none, p)
    | some answer =>
      (some answer, { p with played := p.played + 1, position := behind p.position answer })

/-- Hands a token back: it is the next one to come out. -/
def handBack (p : Playback) (t : Token) : Playback := { p with returned := t :: p.returned }

/-- **A new recording**: the text behind the last place between characters that is not behind the
offset is read by itself, and all places are moved back by the text in front. -/
def seek (p : Playback) (offset : Nat) : Playback :=
  let (front, rest) := Source.cutBefore offset p.source.text.toList
  let place := Position.start.advance (String.ofList front)
  let lexed := tokenize { p.source with text := String.ofList rest } p.lenient
  { p with
    recording := (lexed.shift place).answers
    played := 0
    position := place
    returned := [] }

/-- Reading from recordings. -/
def machine : Machine Playback where
  next? p := some p.next
  handBack := handBack
  seek := seek
  position := position

variable {p : Playback} {r : Reader}

/-- **The rest of the recording is what the reader has to say** once nothing handed back is left. -/
structure Plays (p : Playback) (r : Reader) : Prop where
  source : p.source = r.source
  lenient : p.lenient = r.lenient
  position : p.position = r.position
  returned : p.returned = r.returned
  recording : p.recording.drop p.played = ({ r with returned := [] } : Reader).drain.1.answers

theorem ofSource_plays (source : Source) (lenient : Bool) :
    (ofSource source lenient).Plays (Reader.ofSource source lenient) where
  source := rfl
  lenient := rfl
  position := rfl
  returned := rfl
  recording := rfl

/-- Nothing is left of a recording. -/
theorem next_of_nil (hreturned : p.returned = []) (hrest : p.recording.drop p.played = []) :
    p.next = (none, p) := by
  have hnone : p.recording[p.played]? = none := by rw [← List.head?_drop, hrest, List.head?_nil]
  simp only [next, hreturned, hnone]

/-- One more answer of a recording. -/
theorem next_of_cons (hreturned : p.returned = []) {answer : Except LexicalError Token}
    {rest : List (Except LexicalError Token)} (hrest : p.recording.drop p.played = answer :: rest) :
    p.next =
      (some answer, { p with played := p.played + 1, position := behind p.position answer }) ∧
      p.recording.drop (p.played + 1) = rest := by
  have hsome : p.recording[p.played]? = some answer := by
    rw [← List.head?_drop, hrest, List.head?_cons]
  refine ⟨by simp only [next, hreturned, hsome], ?_⟩
  rw [← List.tail_drop, hrest, List.tail_cons]

/-- **A new answer is the next one of the recording.** -/
theorem Plays.next_of_fresh (h : p.Plays r) (hfresh : r.Fresh) :
    p.next.1 = r.next.1 ∧ p.next.2.Plays r.next.2 := by
  have hreturned : p.returned = [] := h.returned.trans hfresh.returned
  have hself : ({ r with returned := [] } : Reader) = r := by rw [← hfresh.returned]
  have hrecording := h.recording
  rw [hself] at hrecording
  induction r, hfresh using Reader.Fresh.induction with
  | done r hfresh hahead =>
    have hnext := hfresh.next_of_nil hahead
    rw [Reader.drain_of_none hnext] at hrecording
    rw [hnext, next_of_nil hreturned hrecording]
    exact ⟨rfl, h⟩
  | failure r hfresh cause hahead hstrict hnext =>
    rw [Reader.drain_of_error hnext] at hrecording
    obtain ⟨hplay, hrest⟩ := next_of_cons hreturned hrecording
    have hfailed : Reader.next { r with failed := true, returned := [] } =
        (none, { r with failed := true, returned := [] }) := rfl
    rw [hnext, hplay]
    refine ⟨rfl, { h with recording := ?_ }⟩
    rw [Reader.drain_of_none hfailed]
    exact hrest
  | token r hfresh kind text rest _ _ _ hnext _ =>
    rw [Reader.drain_of_ok hnext] at hrecording
    obtain ⟨hplay, hrest⟩ := next_of_cons hreturned hrecording
    have hbehind : ({ (r.emit kind text rest).2 with returned := [] } : Reader) =
        (r.emit kind text rest).2 := congrArg (fun r => (Reader.emit r kind text rest).2) hself
    rw [hnext, hplay]
    refine ⟨rfl, { h with position := rfl, recording := ?_ }⟩
    rw [hbehind]
    exact hrest

/-- **A recording and a reader go on alike.** -/
theorem Plays.next (h : p.Plays r) : p.next.1 = r.next.1 ∧ p.next.2.Plays r.next.2 := by
  cases hreturned : r.returned with
  | cons t ts =>
    have hreturned' : p.returned = t :: ts := h.returned.trans hreturned
    simp only [Playback.next, Reader.next, hreturned, hreturned']
    exact ⟨trivial, { h with returned := rfl }⟩
  | nil =>
    cases hfailed : r.failed with
    | false => exact h.next_of_fresh ⟨hreturned, hfailed⟩
    | true =>
      have hnext : r.next = (none, r) := by simp [Reader.next, hreturned, hfailed]
      have hrest := h.recording
      rw [← hreturned, Reader.drain_of_none hnext] at hrest
      rw [hnext, next_of_nil (h.returned.trans hreturned) hrest]
      exact ⟨rfl, h⟩

theorem Plays.handBack (h : p.Plays r) (t : Token) : (p.handBack t).Plays (r.handBack t) :=
  { h with returned := congrArg (t :: ·) h.returned }

/-- **Behind a place that was moved to** a reader reads what a fresh one reads without the text in
front. -/
theorem Plays.seek (h : p.Plays r) (offset : Nat) : (p.seek offset).Plays (r.seek offset) where
  source := h.source
  lenient := h.lenient
  position := by
    simp only [Playback.seek, Reader.seek, h.source, Position.foldl_step]
  returned := rfl
  recording := by
    have hsoon : (r.seek offset).Fresh := ⟨rfl, rfl⟩
    have hfresh := Reader.ofSource_fresh { r.source with
      text := String.ofList (Source.cutBefore offset r.source.text.toList).2 } r.lenient
    have hplace : (r.seek offset).position =
        (r.seek offset).position.shift Position.start := (Position.shift_start _).symm
    have hdrain := hfresh.drain_shift hsoon String.toList_ofList.symm rfl rfl rfl
      Position.start_counted hplace
    change _ = (r.seek offset).drain.1.answers
    rw [hdrain]
    simp only [Playback.seek, h.source, h.lenient, Reader.seek, Position.foldl_step, tokenize,
      List.drop_zero]

/-- Recordings go in step with readers. -/
theorem simulates : Reader.machine.Simulates machine fun r p => p.Plays r where
  next {r p} h := by
    obtain ⟨hanswer, hplays⟩ := h.next
    exact ⟨r.next.1, r.next.2, p.next.2, rfl, congrArg some (Prod.ext hanswer rfl), hplays⟩
  handBack h token := h.handBack token
  seek h offset := h.seek offset
  position h := h.position.symm

end Playback

/-- **Whatever is asked for, in whatever order, a session plays recordings.**  Tokens handed back
come out first, the latest first, unless the reader is moved before.  What is newly read is, answer
by answer, what a fresh reader makes of the text behind the place that was last moved to, with all
places moved back.  And at every moment there is something to come exactly if the next request for a
token is answered. -/
theorem Machine.run_playback (source : Source) (lenient : Bool) (known : List Token)
    (requests : List Request) :
    ∃ replies c r,
      Cursor.machine.run? (Cursor.ofSource source lenient) known requests = some replies ∧
      Reader.machine.run? (Reader.ofSource source lenient) known requests = some replies ∧
      Playback.machine.run? (Playback.ofSource source lenient) known requests = some replies ∧
      Cursor.machine.reach? (Cursor.ofSource source lenient) known requests = some c ∧
      Reader.machine.reach? (Reader.ofSource source lenient) known requests = some r ∧
      r.hasNext = r.next.1.isSome ∧
      c.hasNext = r.hasNext ∧ ∃ c', c.next? = some (r.next.1, c') := by
  obtain ⟨replies, r, c, hrun, hrunCursor, hreach, hreachCursor, htracks⟩ :=
    Cursor.simulates.exists_run (Cursor.ofSource_tracks source lenient) known requests
  obtain ⟨replies', r', p, hrun', hrunPlayback, hreach', hreachPlayback, hplays⟩ :=
    Playback.simulates.exists_run (Playback.ofSource_plays source lenient) known requests
  obtain rfl : replies = replies' := Option.some.inj (hrun.symm.trans hrun')
  obtain ⟨c', hnext, -⟩ := htracks.next
  exact ⟨replies, c, r, hrunCursor, hrun, hrunPlayback, hreachCursor, hreach, r.hasNext_eq,
    htracks.hasNext_eq, c', hnext⟩

end LosslessCss
