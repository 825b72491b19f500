import LosslessCss.Token.Lexeme

/-!
# Reading tokens

A `Reader` stands somewhere in a source and hands out its tokens one by one.  Tokens can be handed
back, and come out again last in, first out, before anything new is read; and the reader can be
moved to any byte offset.

A bracketed text that the end of the source leaves open is an error.  A strict reader reports it
once and is exhausted from then on.  A lenient reader takes the rest of the source for one word
instead, so for it reading cannot fail.

## Main Definitions

* `LexicalError` : what is not closed and where it starts
* `Reader`, `Reader.next`, `Reader.handBack`, `Reader.seek`, `Reader.hasNext`
* `Lexed`, `Reader.drain` : all tokens up to the end or to the first error
* `tokenize` : the tokens of a source

## Design Notes

`Reader.drain` ends because each token either was handed back before or takes at least one character
from the text ahead: `Reader.remaining` counts both.
-/

namespace LosslessCss

/-- A bracketed text without an end, and the place where it starts. -/
structure LexicalError where
  cause : Token.Unclosed
  position : Position
  deriving DecidableEq, Repr

/-- The text of the message. -/
def LexicalError.message (e : LexicalError) : String :=
  let what := match e.cause with
    | .string => "string"
    | .comment => "comment"
    | .address => "url"
  s!"unclosed {what} at {e.position.name}"

/-- A place in a source from which tokens are read. -/
structure Reader where
  source : Source
  /-- Take an unclosed text for a word. -/
  lenient : Bool
  /-- The place in front of the next new token. -/
  position : Position
  /-- The text behind that place. -/
  ahead : List Char
  mode : Token.Mode
  /-- Tokens handed back, the latest first. -/
  returned : List Token
  /-- An error was reported. -/
  failed : Bool
  deriving DecidableEq, Repr

namespace Reader

/-- A reader at the start of a source. -/
def ofSource (source : Source) (lenient : Bool) : Reader where
  source := source
  lenient := lenient
  position := .start
  ahead := source.text.toList
  mode := .plain
  returned := []
  failed := false

/-- There is another token, or an error to report. -/
def hasNext (r : Reader) : Bool :=
  !r.returned.isEmpty || (!r.failed && !r.ahead.isEmpty)

/-- Hands a token back: it is the next one to come out. -/
def handBack (r : Reader) (t : Token) : Reader := { r with returned := t :: r.returned }

/-- Moves to a byte offset, or to the last place between characters in front of it.  Nothing of the
past counts any longer: not what was handed back, nor an error, nor a word `url`. -/
def seek (r : Reader) (offset : Nat) : Reader :=
  let (before, ahead) := Source.cutBefore offset r.source.text.toList
  { r with
    position := before.foldl Position.step .start
    ahead := ahead
    mode := .plain
    returned := []
    failed := false }

/-- Reads `text` as a token of the given kind, where `rest` stays ahead. -/
def emit (r : Reader) (kind : Token.Kind) (text rest : List Char) : Token × Reader :=
  let stop := text.foldl Position.step r.position
  ({ kind := kind, text := String.ofList text, span := ⟨r.source.id, r.position, stop⟩ },
    { r with position := stop, ahead := rest, mode := r.mode.after kind text rest })

/-- **The next token**, an error, or nothing at the end. -/
def next (r : Reader) : Option (Except LexicalError Token) × Reader :=
  match r.returned with
  | t :: ts => (some (.ok t), { r with returned := ts })
  | [] =>
    if r.failed then (none, r)
    else
      match r.ahead with
      | [] => (none, r)
      | c :: cs =>
        match Token.scan r.mode c cs with
        | .ok (kind, n) =>
          let (t, r') := r.emit kind (c :: cs.take n) (cs.drop n)
          (some (.ok t), r')
        | .error cause =>
          if r.lenient then
            let (t, r') := r.emit .word (c :: cs) []
            (some (.ok t), r')
          else (some (.error ⟨cause, r.position⟩), { r with failed := true })

/-- An upper bound for the number of tokens to come. -/
def remaining (r : Reader) : Nat := r.returned.length + r.ahead.length

/-- **Each token is paid for** by a token handed back or by text ahead. -/
theorem remaining_lt_of_next {r r' : Reader} {t : Token} (h : r.next = (some (.ok t), r')) :
    r'.remaining < r.remaining := by
  unfold next at h
  split at h
  · next more eq =>
    cases h
    show more.length + r.ahead.length < r.remaining
    rw [remaining, eq, List.length_cons]
    omega
  · next eq =>
    split at h
    · cases h
    · split at h
      · cases h
      · next c cs eq' =>
        split at h
        · next kind n _ =>
          cases h
          show r.returned.length + (cs.drop n).length < r.remaining
          rw [remaining, eq', List.length_drop, List.length_cons]
          omega
        · split at h
          · cases h
            show r.returned.length + 0 < r.remaining
            rw [remaining, eq', List.length_cons]
            omega
          · cases h

end Reader

/-- What reading to the end gives: the tokens, and the error that ended it, if one did. -/
structure Lexed where
  tokens : List Token
  failure : Option LexicalError
  deriving DecidableEq, Repr

/-- All tokens up to the end or to the first error, and the reader afterwards. -/
def Reader.drain (r : Reader) : Lexed × Reader :=
  match _step : r.next with
  | (none, r') => (⟨[], none⟩, r')
  | (some (.error e), r') => (⟨[], some e⟩, r')
  | (some (.ok t), r') =>
    let (lexed, last) := r'.drain
    ({ lexed with tokens := t :: lexed.tokens }, last)
termination_by r.remaining
decreasing_by exact remaining_lt_of_next _step

/-- **The tokens of a source.** -/
def tokenize (source : Source) (lenient : Bool) : Lexed :=
  (Reader.ofSource source lenient).drain.1

end LosslessCss
