import LosslessCss.Proofs.Compaction

/-!
# Compacting twice

Compaction leaves a compact text as it is.  What it writes is read as the same units, and the spaces
between them are the ones that it writes again, because tight punctuation is not part of the marks
of a comment.

## Main Statements

* `Value.Compact.write_write` : compaction is idempotent
-/

namespace LosslessCss

open Value Value.Compact

namespace Value.Compact

/-- A unit is as long in front of what is written behind it. -/
theorem unitTail_take (c : Char) (cs more : List Char)
    (hmore : cs.drop (unitTail c cs) = [] → more = []) :
    unitTail c (cs.take (unitTail c cs) ++ more) = (cs.take (unitTail c cs)).length := by
  unfold unitTail at hmore ⊢
  split
  · next hc =>
    rw [if_pos hc] at hmore
    cases cs with
    | nil => simp [hmore rfl]
    | cons d cs => simp
  · next hc =>
    rw [if_neg hc] at hmore
    split
    · next hquote =>
      rw [if_pos hquote] at hmore
      rcases quotedTail_cases c cs with hall | ⟨inner, rest, rfl, hclosed⟩
      · rw [hall] at hmore ⊢
        rw [hmore (by simp), List.take_length, List.append_nil, hall]
      · have htake : (inner ++ c :: rest).take (inner.length + 1) = inner ++ [c] := by
          rw [List.append_cons, List.take_left' (by simp)]
        rw [hclosed, htake, List.append_assoc, List.singleton_append, hclosed]
        simp
    · simp

/-- What is written behind a separator starts with a space or next to tight punctuation. -/
theorem head?_write_separated {tight : Tightness} {b a : Char} (hb : b ∉ tight.behind)
    (ha : a ∉ tight.before) (hspace : a ≠ ' ') (cs : List Char) :
    (write tight (some b) (units true cs)).head? ≠ some a := by
  generalize hseparated : true = separated
  fun_induction units separated cs with
  | case1 => simp [write]
  | case2 separated c cs n htail ih => exact ih rfl
  | case3 separated c cs htail n ih =>
    subst hseparated
    rw [write]
    cases hspaces : tight.spaces (some b) (c :: cs.take n).head? with
    | true => simpa using hspace.symm
    | false =>
      rintro hhead
      obtain rfl : c = a := by simpa using hhead
      simp [Tightness.spaces, hb, ha] at hspaces

/-- **Compaction changes nothing more**, if no tight punctuation is part of the marks of a
comment. -/
theorem write_write {tight : Tightness} (htight : tight.Harmless) (last : Option Char)
    (separated : Bool) (cs : List Char) :
    write tight last (units false (write tight last (units separated cs))) =
      write tight last (units separated cs) := by
  fun_induction units separated cs generalizing last with
  | case1 => simp [units, write]
  | case2 separated c cs n htail ih => exact ih last
  | case3 separated c cs htail n ih =>
    have hrest := ih (c :: cs.take n).getLast?
    obtain ⟨hwhite, hcomment⟩ := separatorTail?_eq_none_iff.mp htail
    -- A slash in front of a star was not in front of it, so there is a space between them.
    have hcomment' : ¬(c = '/' ∧ (cs.take n ++ write tight (c :: cs.take n).getLast?
        (units false (cs.drop n))).head? = some '*') := by
      rintro ⟨rfl, hstar⟩
      have hn : n = 0 := rfl
      rw [hn, List.take_zero, List.nil_append, List.drop_zero, List.getLast?_singleton] at hstar
      cases cs with
      | nil => simp [units, write] at hstar
      | cons d cs =>
        rw [units] at hstar
        cases hsep : separatorTail? d cs with
        | none =>
          rw [hsep] at hstar
          obtain rfl : d = '*' := by simpa [write] using hstar
          exact hcomment ⟨rfl, rfl⟩
        | some m =>
          rw [hsep] at hstar
          refine head?_write_separated (fun h => ?_) (fun h => ?_) (by decide) _ hstar
          · exact (htight '/' (List.mem_append_right _ h)).1 rfl
          · exact (htight '*' (List.mem_append_left _ h)).2.1 rfl
    have hlength := unitTail_take c cs (write tight (c :: cs.take n).getLast?
      (units false (cs.drop n))) (fun hnil => by
        rw [show cs.drop n = [] from hnil]
        simp [units, write])
    have hunit (separated : Bool) := units_of_unit separated c (cs.take n)
      (write tight (c :: cs.take n).getLast? (units false (cs.drop n))) hwhite hcomment' hlength
    rw [write]
    cases hspace : separated && tight.spaces last (c :: cs.take n).head? with
    | false =>
      rw [if_neg (by simp), List.nil_append, List.cons_append, hunit false, write_unit, hrest]
      simp
    | true =>
      have hspaces := (Bool.and_eq_true_iff.mp hspace).2
      rw [if_pos rfl, List.append_assoc, List.singleton_append, List.cons_append,
        units_of_isWhiteSpace _ rfl, hunit true, write_unit, hrest, hspaces]
      simp

end Value.Compact

/-- A selector is compacted once. -/
theorem Value.compactSelector_compactSelector (selector : String) :
    compactSelector (compactSelector selector) = compactSelector selector := by
  rw [compactSelector, compactSelector, String.toList_ofList, compact, compact,
    write_write selectorTightness_harmless]

/-- A value is compacted once. -/
theorem Value.compactValue_compactValue (value : String) :
    compactValue (compactValue value) = compactValue value := by
  rw [compactValue, compactValue, String.toList_ofList, compact, compact,
    write_write valueTightness_harmless]

end LosslessCss
