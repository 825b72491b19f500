import LosslessCss.Token.Reader
import LosslessCss.Proofs.Scan

/-!
# Lexical analysis without places

Where a token stands matters to spans and messages, but not to what is read.  A `Lexeme` is a token
without its place, and `Lexes` relates a stretch of text to its lexemes: the stretch is read
completely, by whole tokens, while some further text lies ahead.  Stretches compose
(`Lexes.append`), so a text can be analysed piece by piece, each piece with the text that really
follows it.

## Main Definitions

* `Lexeme`, `Token.lexeme`
* `Lexes` : a stretch of text, the text behind it, its lexemes, and the mode behind it
* `Reader.Fresh` : a reader that nothing was handed back to and that has not failed

## Main Statements

* `Reader.Fresh.induction` : reading takes the text ahead piece by piece
* `Reader.Fresh.lexes_of_drain`, `Reader.Fresh.drain_of_lexes` : reading to the end without an error
  is the same as having lexemes
* `Reader.Fresh.drain_covers` : the tokens cover the text ahead
* `Reader.Fresh.failure_of_lenient` : a lenient reader does not fail
-/

namespace LosslessCss

/-- A token without its place. -/
structure Lexeme where
  kind : Token.Kind
  text : List Char
  deriving DecidableEq, Repr

/-- A token without its place. -/
def Token.lexeme (t : Token) : Lexeme := ⟨t.kind, t.text.toList⟩

/-- The text that a run of lexemes covers. -/
def Lexeme.concat (ls : List Lexeme) : List Char := ls.flatMap Lexeme.text

@[simp]
theorem Lexeme.concat_nil : concat [] = [] := rfl

@[simp]
theorem Lexeme.concat_cons (l : Lexeme) (ls : List Lexeme) :
    concat (l :: ls) = l.text ++ concat ls := rfl

@[simp]
theorem Lexeme.concat_append (ls ls' : List Lexeme) :
    concat (ls ++ ls') = concat ls ++ concat ls' := by
  simp [concat]

/-- Forgetting places keeps the text. -/
theorem Token.toList_concat (ts : List Token) :
    (concat ts).toList = Lexeme.concat (ts.map lexeme) := by
  induction ts with
  | nil => rfl
  | cons t ts ih => simp [ih, lexeme]

open Token (Mode Scans)

/-- **The stretch `cs` is read as `ls`**, in the given mode and with `rest` ahead of it; `last` is
the mode behind it. -/
inductive Lexes : Mode → List Char → List Char → List Lexeme → Mode → Prop
  | nil (mode : Mode) (rest : List Char) : Lexes mode [] rest [] mode
  | cons {mode last : Mode} {kind : Token.Kind} {c : Char} {text cs rest : List Char}
      {ls : List Lexeme} (hscan : Scans c (text ++ (cs ++ rest)) mode kind text.length)
      (htail : Lexes (mode.after kind (c :: text) (cs ++ rest)) cs rest ls last) :
      Lexes mode (c :: text ++ cs) rest (⟨kind, c :: text⟩ :: ls) last

namespace Lexes

variable {mode middle last : Mode} {cs ds rest : List Char} {ls ls' : List Lexeme}

/-- The lexemes cover the stretch. -/
theorem concat_eq (h : Lexes mode cs rest ls last) : Lexeme.concat ls = cs := by
  induction h with
  | nil => rfl
  | cons _ _ ih => simp [ih]

/-- **Stretches compose.** -/
theorem append (h : Lexes mode cs (ds ++ rest) ls middle) (h' : Lexes middle ds rest ls' last) :
    Lexes mode (cs ++ ds) rest (ls ++ ls') last := by
  generalize hahead : ds ++ rest = ahead at h
  induction h with
  | nil => exact h'
  | cons hscan _ ih =>
    subst hahead
    rw [List.append_assoc]
    exact .cons (by simpa using hscan) (by simpa using ih h' rfl)

/-- **Stretches can be cut** between two lexemes. -/
theorem exists_of_append (h : Lexes mode cs rest (ls ++ ls') last) :
    ∃ cs₁ cs₂ middle, cs = cs₁ ++ cs₂ ∧ Lexes mode cs₁ (cs₂ ++ rest) ls middle ∧
      Lexes middle cs₂ rest ls' last := by
  induction ls generalizing mode cs with
  | nil => exact ⟨[], cs, mode, rfl, .nil _ _, h⟩
  | cons l ls ih =>
    cases h with
    | cons hscan htail =>
      obtain ⟨cs₁, cs₂, middle, rfl, h₁, h₂⟩ := ih htail
      exact ⟨_, cs₂, middle, (List.append_assoc _ _ _).symm,
        .cons (by simpa using hscan) (by simpa using h₁), h₂⟩

/-- Lexemes fit their kinds. -/
theorem spells (h : Lexes mode cs rest ls last) : ∀ l ∈ ls, l.kind.Spells l.text := by
  induction h with
  | nil => simp
  | cons hscan _ ih =>
    intro l hl
    rcases List.mem_cons.mp hl with rfl | hl
    · simpa using hscan.spells
    · exact ih l hl

end Lexes

/-! ### Readers -/

namespace Reader

/-- Nothing was handed back and no error was reported. -/
structure Fresh (r : Reader) : Prop where
  returned : r.returned = []
  failed : r.failed = false

theorem ofSource_fresh (source : Source) (lenient : Bool) : (ofSource source lenient).Fresh :=
  ⟨rfl, rfl⟩

theorem drain_of_none {r r' : Reader} (h : r.next = (none, r')) : r.drain = (⟨[], none⟩, r') := by
  rw [drain]
  split <;> simp_all

theorem drain_of_error {r r' : Reader} {e : LexicalError} (h : r.next = (some (.error e), r')) :
    r.drain = (⟨[], some e⟩, r') := by
  rw [drain]
  split <;> simp_all

theorem drain_of_ok {r r' : Reader} {t : Token} (h : r.next = (some (.ok t), r')) :
    r.drain = (⟨t :: r'.drain.1.tokens, r'.drain.1.failure⟩, r'.drain.2) := by
  rw [drain]
  split <;> simp_all

namespace Fresh

variable {r : Reader}

/-- Behind a token that was read the reader is still fresh. -/
theorem emit (h : r.Fresh) (kind : Token.Kind) (text rest : List Char) :
    (r.emit kind text rest).2.Fresh :=
  ⟨h.returned, h.failed⟩

theorem next_of_nil (h : r.Fresh) (hahead : r.ahead = []) : r.next = (none, r) := by
  simp [next, h.returned, h.failed, hahead]

/-- The outcome of a step is what a fresh reader hands out. -/
theorem next_of_scans (h : r.Fresh) {c : Char} {cs : List Char} {kind : Token.Kind} {n : Nat}
    (hahead : r.ahead = c :: cs) (hscan : Scans c cs r.mode kind n) :
    r.next = (some (.ok (r.emit kind (c :: cs.take n) (cs.drop n)).1),
      (r.emit kind (c :: cs.take n) (cs.drop n)).2) := by
  simp [next, h.returned, h.failed, hahead, Token.scan_eq_ok_iff.mpr hscan]

/-- Without an outcome a lenient reader takes the rest for a word. -/
theorem next_of_error_of_lenient (h : r.Fresh) {c : Char} {cs : List Char}
    {cause : Token.Unclosed} (hahead : r.ahead = c :: cs)
    (hscan : Token.scan r.mode c cs = .error cause) (hlenient : r.lenient = true) :
    r.next = (some (.ok (r.emit .word (c :: cs) []).1), (r.emit .word (c :: cs) []).2) := by
  simp [next, h.returned, h.failed, hahead, hscan, hlenient]

/-- Without an outcome a strict reader fails. -/
theorem next_of_error_of_strict (h : r.Fresh) {c : Char} {cs : List Char}
    {cause : Token.Unclosed} (hahead : r.ahead = c :: cs)
    (hscan : Token.scan r.mode c cs = .error cause) (hstrict : r.lenient = false) :
    r.next = (some (.error ⟨cause, r.position⟩), { r with failed := true }) := by
  simp [next, h.returned, h.failed, hahead, hscan, hstrict]

/-- **Induction on the text ahead**: a fresh reader is at the end, fails, or takes some of the text
as a token and is fresh again. -/
theorem induction {motive : (r : Reader) → r.Fresh → Prop}
    (done : ∀ (r : Reader) (h : r.Fresh), r.ahead = [] → motive r h)
    (failure : ∀ (r : Reader) (h : r.Fresh) (cause : Token.Unclosed), r.ahead ≠ [] →
      r.lenient = false →
      r.next = (some (.error ⟨cause, r.position⟩), { r with failed := true }) → motive r h)
    (token : ∀ (r : Reader) (h : r.Fresh) (kind : Token.Kind) (text rest : List Char), text ≠ [] →
      kind.Spells text → r.ahead = text ++ rest →
      r.next = (some (.ok (r.emit kind text rest).1), (r.emit kind text rest).2) →
      motive (r.emit kind text rest).2 (h.emit kind text rest) → motive r h)
    (r : Reader) (h : r.Fresh) : motive r h := by
  generalize hsize : r.ahead.length = size
  induction size using Nat.strong_induction_on generalizing r with
  | _ size ih =>
    subst hsize
    have hstep {kind : Token.Kind} {text rest : List Char} (htext : text ≠ [])
        (hspells : kind.Spells text) (hcut : r.ahead = text ++ rest)
        (hnext : r.next = (some (.ok (r.emit kind text rest).1), (r.emit kind text rest).2)) :
        motive r h := by
      have hpos := List.length_pos_iff.mpr htext
      refine token r h kind text rest htext hspells hcut hnext
        (ih rest.length ?_ _ (h.emit kind text rest) rfl)
      rw [hcut, List.length_append]
      omega
    cases hahead : r.ahead with
    | nil => exact done r h hahead
    | cons c cs =>
      cases hscan : Token.scan r.mode c cs with
      | ok outcome =>
        obtain ⟨kind, n⟩ := outcome
        have hscans := Token.scan_eq_ok_iff.mp hscan
        exact hstep (List.cons_ne_nil _ _) hscans.spells
          (by rw [hahead, List.cons_append, List.take_append_drop]) (h.next_of_scans hahead hscans)
      | error cause =>
        cases hlenient : r.lenient with
        | true =>
          have hword : Token.Kind.word.Spells (c :: cs) := trivial
          exact hstep (List.cons_ne_nil _ _) hword (hahead.trans (List.append_nil _).symm)
            (h.next_of_error_of_lenient hahead hscan hlenient)
        | false =>
          exact failure r h cause (hahead.trans_ne (List.cons_ne_nil _ _)) hlenient
            (h.next_of_error_of_strict hahead hscan hlenient)

/-- **Reading to the end without an error gives lexemes** of the text ahead. -/
theorem lexes_of_drain (h : r.Fresh) (hstrict : r.lenient = false)
    (hdrain : r.drain.1.failure = none) :
    ∃ last, Lexes r.mode r.ahead [] (r.drain.1.tokens.map Token.lexeme) last := by
  generalize hsize : r.ahead.length = size
  induction size using Nat.strong_induction_on generalizing r with
  | _ size ih =>
    subst hsize
    cases hahead : r.ahead with
    | nil =>
      rw [drain_of_none (h.next_of_nil hahead)]
      exact ⟨_, .nil _ _⟩
    | cons c cs =>
      cases hscan : Token.scan r.mode c cs with
      | error cause =>
        rw [drain_of_error (h.next_of_error_of_strict hahead hscan hstrict)] at hdrain
        cases hdrain
      | ok outcome =>
        obtain ⟨kind, n⟩ := outcome
        have hscans := Token.scan_eq_ok_iff.mp hscan
        have hnext := h.next_of_scans hahead hscans
        rw [drain_of_ok hnext] at hdrain ⊢
        obtain ⟨last, hlast⟩ := ih (cs.drop n).length (by rw [hahead]; simp)
          (h.emit kind (c :: cs.take n) (cs.drop n)) hstrict hdrain rfl
        refine ⟨last, ?_⟩
        have hlength : (cs.take n).length = n := by simpa using hscans.le_length
        have hcut : c :: cs = c :: cs.take n ++ cs.drop n := by simp
        rw [hcut]
        simp only [List.map_cons]
        have hlexeme : (r.emit kind (c :: cs.take n) (cs.drop n)).1.lexeme =
            ⟨kind, c :: cs.take n⟩ := by
          simp [Reader.emit, Token.lexeme]
        rw [hlexeme]
        refine .cons ?_ ?_
        · simpa [hlength] using hscans
        · simpa [Reader.emit] using hlast

/-- **Lexemes of the text ahead are what reading to the end gives.** -/
theorem drain_of_lexes (h : r.Fresh) {ls : List Lexeme} {last : Mode}
    (hlexes : Lexes r.mode r.ahead [] ls last) :
    r.drain.1.failure = none ∧ r.drain.1.tokens.map Token.lexeme = ls := by
  induction ls generalizing r with
  | nil =>
    have hahead : r.ahead = [] := by simpa using hlexes.concat_eq.symm
    rw [drain_of_none (h.next_of_nil hahead)]
    exact ⟨rfl, rfl⟩
  | cons l ls ih =>
    generalize hahead : r.ahead = ahead at hlexes
    cases hlexes with
    | @cons _ _ kind c text cs _ _ hscan htail =>
      have hnext := h.next_of_scans hahead (by simpa using hscan)
      simp only [List.append_eq, List.take_left', List.drop_left'] at hnext
      rw [drain_of_ok hnext]
      obtain ⟨hfailure, htokens⟩ := ih (h.emit kind (c :: text) cs)
        (by simpa [Reader.emit] using htail)
      refine ⟨hfailure, ?_⟩
      rw [List.map_cons, htokens]
      simp [Reader.emit, Token.lexeme]

/-- **A lenient reader does not fail.** -/
theorem failure_of_lenient (h : r.Fresh) (hlenient : r.lenient = true) :
    r.drain.1.failure = none := by
  induction r, h using Fresh.induction with
  | done r h hahead => rw [drain_of_none (h.next_of_nil hahead)]
  | failure r h cause hahead hstrict hnext =>
    rw [hlenient] at hstrict
    cases hstrict
  | token r h kind text rest _ _ hcut hnext ih =>
    rw [drain_of_ok hnext]
    exact ih hlenient

/-- **The texts of tokens fit their kinds.** -/
theorem drain_spells (h : r.Fresh) : ∀ t ∈ r.drain.1.tokens, t.kind.Spells t.text.toList := by
  induction r, h using Fresh.induction with
  | done r h hahead => simp [drain_of_none (h.next_of_nil hahead)]
  | failure r h cause hahead hstrict hnext => simp [drain_of_error hnext]
  | token r h kind text rest htext hspells hcut hnext ih =>
    rw [drain_of_ok hnext]
    refine List.forall_mem_cons.mpr ⟨?_, ih⟩
    simpa [Reader.emit] using hspells

/-- **Tokens cover the text ahead**, and their texts fit their kinds. -/
theorem drain_covers (h : r.Fresh) (hdrain : r.drain.1.failure = none) :
    Lexeme.concat (r.drain.1.tokens.map Token.lexeme) = r.ahead ∧
      ∀ t ∈ r.drain.1.tokens, t.kind.Spells t.text.toList := by
  refine ⟨?_, h.drain_spells⟩
  induction r, h using Fresh.induction with
  | done r h hahead =>
    rw [drain_of_none (h.next_of_nil hahead), hahead]
    rfl
  | failure r h cause hahead hstrict hnext =>
    rw [drain_of_error hnext] at hdrain
    cases hdrain
  | token r h kind text rest htext hspells hcut hnext ih =>
    rw [drain_of_ok hnext] at hdrain ⊢
    rw [List.map_cons, Lexeme.concat_cons, ih hdrain, hcut]
    simp [Reader.emit, Token.lexeme]

/-- No token is empty. -/
theorem text_ne_empty (h : r.Fresh) : ∀ t ∈ r.drain.1.tokens, t.text ≠ "" := by
  induction r, h using Fresh.induction with
  | done r h hahead => simp [drain_of_none (h.next_of_nil hahead)]
  | failure r h cause hahead hstrict hnext => simp [drain_of_error hnext]
  | token r h kind text rest htext _ hcut hnext ih =>
    rw [drain_of_ok hnext]
    refine List.forall_mem_cons.mpr ⟨?_, ih⟩
    simpa [Reader.emit, String.ofList_eq_empty_iff] using htext

end Fresh

end Reader

end LosslessCss
