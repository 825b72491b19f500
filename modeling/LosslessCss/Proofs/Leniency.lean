import LosslessCss.Proofs.Recovery
import LosslessCss.Proofs.RoundTrip

/-!
# A lenient parse is conservative

Leniency is asked for at four places: where a bracketed text has no end, where a statement is no
declaration, at a closing brace without a block, and at the end of the source.  A strict parse that
succeeds has taken the regular branch at each of them, and a lenient parse takes the same branch on
the same tokens.  So the two runs go through the same states, and their trees are one: contents,
gaps and spans.

The argument is a simulation in lockstep.  That both readers read the same is known
(`Reader.Fresh.drain_lenient`); for the parser it is done for a token (`Parse.State.Steps.lenient`)
and from there for a run.

## Main Statements

* `parse_lenient_of_parse`
-/

namespace LosslessCss

/-! ### The parser -/

namespace Parse.State

variable {s s' : State} {t : Token} {ts : List Token}

/-- A statement that a strict parse can end is ended in the same way by a lenient one. -/
theorem Ends.lenient {semicolon? : Option Token} (h : s.Ends false semicolon? s') :
    s.Ends true semicolon? s' := by
  cases h with
  | atRule hrun hkind => exact .atRule hrun hkind
  | declaration hrun hkind hparts => exact .declaration hrun hkind hparts
  | kept hlenient => cases hlenient

/-- **One token.**  What it does to a strict parse it does to a lenient one. -/
theorem Steps.lenient (h : s.Steps false t s') : s.Steps true t s' := by
  cases h with
  | gap hbuffer hkind => exact .gap hbuffer hkind
  | comment hbuffer hkind => exact .comment hbuffer hkind
  | openBlock hkind => exact .openBlock hkind
  | close hbuffer hkind houter => exact .close hbuffer hkind houter
  | stray hlenient => cases hlenient
  | first hbuffer hkind => exact .first hbuffer hkind
  | more hbuffer hkind => exact .more hbuffer hkind
  | semicolon hbuffer hkind hdepth hends => exact .semicolon hbuffer hkind hdepth hends.lenient
  | endClose hbuffer hkind houter hends => exact .endClose hbuffer hkind houter hends.lenient
  | endStray hlenient => cases hlenient

/-- **A run.**  Token by token a lenient parse goes through the states of the strict one. -/
theorem Runs.lenient (h : Runs false s ts s') : Runs true s ts s' := by
  induction ts generalizing s with
  | nil => simpa using h
  | cons t ts ih =>
    obtain ⟨s₁, hstep, hrest⟩ := runs_cons.mp h
    exact runs_cons.mpr ⟨s₁, hstep.lenient, ih hrest⟩

/-- The end of the source finds no open block, so there is none for a lenient parse to close. -/
theorem finish_lenient {source : Source} {tree : Tree Node}
    (h : s.finish source false = .ok tree) : s.finish source true = .ok tree := by
  obtain ⟨s₁, hlast, -, htree⟩ := finish_eq_ok_iff.mp h
  refine finish_eq_ok_iff.mpr ⟨s₁, ?_, .inr rfl, htree⟩
  cases hlast with
  | nothing hbuffer => exact .nothing hbuffer
  | statement hbuffer hends => exact .statement hbuffer hends.lenient

end Parse.State

/-! ### Main statement -/

/-- **A lenient parse of a source that a strict parse accepts gives the very same tree.** -/
theorem parse_lenient_of_parse {source : Source} {t : Tree Node}
    (h : parse source false = .ok t) : parse source true = .ok t := by
  obtain ⟨hfailure, s, hrun, hfinish⟩ := parse_eq_ok_iff.mp h
  have htokens : tokenize source true = tokenize source false :=
    (Reader.ofSource_fresh source false).drain_lenient rfl hfailure
  refine parse_eq_ok_iff.mpr ⟨?_, s, ?_, Parse.State.finish_lenient hfinish⟩
  · rw [htokens]
    exact hfailure
  · rw [htokens]
    exact hrun.lenient

theorem parse_lenient_of_parse_gappySheet :
    ∃ t, parse gappySheet false = .ok t ∧ parse gappySheet true = .ok t := by
  obtain ⟨t, ht⟩ := exists_ok_of_isOk (by decide +kernel : (parse gappySheet false).isOk = true)
  exact ⟨t, ht, parse_lenient_of_parse ht⟩

end LosslessCss
