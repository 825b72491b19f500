import LosslessCss.Proofs.Tiling

/-!
# What leniency makes of a text without an end

A strict and a lenient reader differ in one thing only: where a string, a comment or an address is
not closed, the strict one stops with an error, and the lenient one takes all that is left for a
word.  Up to that place they read the same tokens, and behind the word nothing is left to read.  So
the tokens of one reader are known from those of the other, whatever was not closed.

Where the word stands need not be followed through the reading: it comes in a row with the tokens in
front of it, and together they cover the source.

## Main Statements

* `Reader.Fresh.exists_drain_lenient` : the tokens of both readers
* `tokenize_lenient` : the same for a source, with the place and the text of the word
-/

namespace LosslessCss

namespace Reader.Fresh

variable {r : Reader}

/-- **A lenient reader reads what a strict one reads**, and one more word if the strict one fails. -/
theorem exists_drain_lenient (h : r.Fresh) (hstrict : r.lenient = false) :
    ∃ words, ({ r with lenient := true } : Reader).drain.1 = ⟨r.drain.1.tokens ++ words, none⟩ ∧
      (r.drain.1.failure = none → words = []) ∧
        ∀ e ∈ r.drain.1.failure, ∃ word, words = [word] ∧ word.kind = .word := by
  -- Each token takes some of the text ahead, so the induction is on its length.
  generalize hsize : r.ahead.length = size
  induction size using Nat.strong_induction_on generalizing r with
  | _ size ih =>
    subst hsize
    have h' : ({ r with lenient := true } : Reader).Fresh := ⟨h.returned, h.failed⟩
    by_cases hahead : r.ahead = []
    · rw [drain_of_none (h.next_of_nil hahead), drain_of_none (h'.next_of_nil hahead)]
      exact ⟨[], rfl, fun _ => rfl, nofun⟩
    · obtain ⟨c, cs, hahead⟩ := List.exists_cons_of_ne_nil hahead
      cases hscan : Token.scan r.mode c cs with
      | error cause =>
        rw [drain_of_error (h.next_of_error_of_strict hahead hscan hstrict),
          drain_of_ok (h'.next_of_error_of_lenient hahead hscan rfl),
          drain_of_none ((h'.emit .word (c :: cs) []).next_of_nil rfl)]
        exact ⟨[_], rfl, nofun, fun _ _ => ⟨_, rfl, rfl⟩⟩
      | ok outcome =>
        obtain ⟨kind, n⟩ := outcome
        have hscans := Token.scan_eq_ok_iff.mp hscan
        rw [drain_of_ok (h.next_of_scans hahead hscans)]
        rw [drain_of_ok (h'.next_of_scans hahead hscans)]
        obtain ⟨words, hdrain, hwords⟩ := ih (cs.drop n).length (by rw [hahead]; simp)
          (h.emit kind (c :: cs.take n) (cs.drop n)) hstrict rfl
        refine ⟨words, ?_, hwords⟩
        exact congrArg (fun lexed : Lexed => (⟨_ :: lexed.tokens, lexed.failure⟩ : Lexed)) hdrain

/-- Without an error both readers read the same. -/
theorem drain_lenient (h : r.Fresh) (hstrict : r.lenient = false)
    (hdrain : r.drain.1.failure = none) :
    ({ r with lenient := true } : Reader).drain.1 = r.drain.1 := by
  obtain ⟨words, hlenient, hnone, -⟩ := h.exists_drain_lenient hstrict
  rw [hlenient, hnone hdrain, List.append_nil, ← hdrain]

end Reader.Fresh

/-- **Both readers agree up to the failure.**  If a strict reader comes to the end of a source, a
lenient one reads the very same tokens.  If it comes to an error, a lenient one reads the tokens in
front of the error and then exactly one more, a word that covers the source from the place of the
error to the end. -/
theorem tokenize_lenient (source : Source) :
    ((tokenize source false).failure = none → tokenize source true = tokenize source false) ∧
      ∀ e, (tokenize source false).failure = some e → ∃ word : Token,
        tokenize source true = ⟨(tokenize source false).tokens ++ [word], none⟩ ∧
          word.kind = .word ∧ word.span = ⟨source.id, e.position, source.endPosition⟩ ∧
            source.slice? source.id e.position.offset source.size = some word.text := by
  have hfresh := Reader.ofSource_fresh source false
  refine ⟨hfresh.drain_lenient rfl, fun e he => ?_⟩
  obtain ⟨words, hlenient, -, hsome⟩ := hfresh.exists_drain_lenient rfl
  obtain ⟨word, rfl, hkind⟩ := hsome e he
  have hdrain : tokenize source true = ⟨(tokenize source false).tokens ++ [word], none⟩ := hlenient
  have htokens : (tokenize source true).tokens = (tokenize source false).tokens ++ [word] :=
    congrArg Lexed.tokens hdrain
  have hplace : e.position = Position.start.advance (Token.concat (tokenize source false).tokens) := by
    obtain ⟨_, -, -, hplaces⟩ := hfresh.exists_rest
    exact (hplaces e he).2
  have hwhole : source.text = Token.concat (tokenize source true).tokens := by
    obtain ⟨hcovers, -⟩ := (Reader.ofSource_fresh source true).drain_covers
      (congrArg Lexed.failure hdrain)
    rw [← Token.toList_concat] at hcovers
    exact (String.toList_inj.mp hcovers).symm
  have hrow := tokenize_inRow source true
  have hspan : word.span = ⟨source.id, e.position, source.endPosition⟩ := by
    have hend : source.endPosition = e.position.advance word.text := by
      rw [Source.endPosition, hwhole, htokens, hplace]
      simp
    rw [htokens] at hrow
    rw [(Token.InRow.append_iff.mp hrow).2.1, hend, hplace]
  have hcovers : word.span.Covers source word.text :=
    hrow.covers (hwhole.trans String.append_empty.symm) (by simp [htokens])
  have hslice := hcovers.slice?_eq
  rw [hspan, Source.endPosition_offset] at hslice
  exact ⟨word, hdrain, hkind, hspan, hslice⟩

/-- A word, and an address on two lines that an escaped parenthesis does not close. -/
def openSheet : Source where
  text := "é url(中\n\\)"

theorem tokenize_lenient_openSheet :
    (tokenize openSheet false).failure = some ⟨.address, 7, 1, 7⟩ ∧
      ∃ word : Token, (tokenize openSheet true).tokens =
          (tokenize openSheet false).tokens ++ [word] ∧
        word.kind = .word ∧ word.text = "中\n\\)" ∧ word.span = ⟨0, ⟨7, 1, 7⟩, ⟨13, 2, 3⟩⟩ := by
  have hfailure : (tokenize openSheet false).failure = some ⟨.address, 7, 1, 7⟩ := by
    decide +kernel
  obtain ⟨word, htokens, hkind, hspan, hslice⟩ := (tokenize_lenient openSheet).2 _ hfailure
  have htext : openSheet.slice? 0 7 openSheet.size = some "中\n\\)" := by decide +kernel
  exact ⟨hfailure, word, congrArg Lexed.tokens htokens, hkind,
    Option.some.inj (hslice.symm.trans htext), hspan⟩

end LosslessCss
