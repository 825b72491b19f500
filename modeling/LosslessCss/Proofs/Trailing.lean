import LosslessCss.Text.WhiteSpace
import Mathlib

/-!
# Trailing runs and what stands in front of them

Where a list is cut in front of its trailing run does not depend on what stands far in front: as
soon as one element outside the class is met, the rest of the list is only carried along.  A leading run
ends where the first element outside the class stands.

## Main Statements

* `dropTrailing_append_of_ne_nil`, `takeTrailing_append_of_ne_nil` : a stretch in front is carried
  along
* `dropTrailing_append_of_all` : a run of the class at the end is dropped
* `takeWhile_append_of_head`, `dropWhile_append_of_head` : a leading run in front of something else
* `dropTrailing_eq_self_iff` : nothing is dropped exactly if the last element is outside the class
* `Text.trim_trim`, `Text.trim_append_cons` : what trimming a text leaves
-/

namespace LosslessCss

universe u

variable {α : Type u} {p : α → Bool}

section Leading

variable {l k : List α} (hl : ∀ a ∈ l, p a = true) (hk : ∀ a ∈ k.head?, p a = false)

include hl hk

/-- A leading run ends in front of what is outside the class. -/
theorem takeWhile_append_of_head : (l ++ k).takeWhile p = l := by
  rw [List.takeWhile_append_of_pos hl]
  cases k with
  | nil => simp
  | cons a k => simp [hk a rfl]

theorem dropWhile_append_of_head : (l ++ k).dropWhile p = k := by
  rw [List.dropWhile_append_of_pos hl]
  cases k with
  | nil => rfl
  | cons a k => simp [hk a rfl]

end Leading

theorem dropTrailing_isPrefix (p : α → Bool) (l : List α) : dropTrailing p l <+: l :=
  ⟨_, dropTrailing_append_takeTrailing p l⟩

theorem takeTrailing_isSuffix (p : α → Bool) (l : List α) : takeTrailing p l <:+ l :=
  ⟨_, dropTrailing_append_takeTrailing p l⟩

/-- The run that is cut off is in the class. -/
theorem of_mem_takeTrailing {l : List α} {a : α} (h : a ∈ takeTrailing p l) : p a = true := by
  rw [takeTrailing, List.mem_reverse] at h
  exact List.mem_takeWhile_imp h

/-- What stays is empty exactly if all is in the class. -/
theorem dropTrailing_eq_nil_iff {l : List α} : dropTrailing p l = [] ↔ ∀ a ∈ l, p a = true := by
  rw [dropTrailing, List.reverse_eq_nil_iff, List.dropWhile_eq_nil_iff]
  simp

/-- **A stretch in front is carried along** by what stays. -/
theorem dropTrailing_append_of_ne_nil {l : List α} (k : List α) (h : dropTrailing p l ≠ []) :
    dropTrailing p (k ++ l) = k ++ dropTrailing p l := by
  have hstop : (l.reverse.dropWhile p).isEmpty = false := by
    simpa [dropTrailing] using h
  rw [dropTrailing, List.reverse_append, List.dropWhile_append, hstop]
  simp [dropTrailing]

/-- A stretch in front does not change what is cut off. -/
theorem takeTrailing_append_of_ne_nil {l : List α} (k : List α) (h : dropTrailing p l ≠ []) :
    takeTrailing p (k ++ l) = takeTrailing p l := by
  have hboth := dropTrailing_append_takeTrailing p (k ++ l)
  rw [dropTrailing_append_of_ne_nil k h, List.append_assoc] at hboth
  have hl := List.append_cancel_left hboth
  exact List.append_cancel_left (hl.trans (dropTrailing_append_takeTrailing p l).symm)

/-- A run of the class at the end is dropped. -/
theorem dropTrailing_append_of_all (l : List α) {k : List α} (h : ∀ a ∈ k, p a = true) :
    dropTrailing p (l ++ k) = dropTrailing p l := by
  have hk : k.reverse.dropWhile p = [] := by simpa using h
  rw [dropTrailing, List.reverse_append, List.dropWhile_append, hk]
  simp [dropTrailing]

/-- Nothing is dropped behind an element outside the class. -/
theorem dropTrailing_append_singleton {l : List α} {a : α} (h : p a = false) :
    dropTrailing p (l ++ [a]) = l ++ [a] := by
  simp [dropTrailing, h]

/-- An element outside the class at the start always stays. -/
theorem dropTrailing_cons_of_neg {a : α} (l : List α) (h : p a = false) :
    dropTrailing p (a :: l) = a :: dropTrailing p l := by
  by_cases hl : dropTrailing p l = []
  · rw [hl, show a :: l = [a] ++ l from rfl,
      dropTrailing_append_of_all [a] (dropTrailing_eq_nil_iff.mp hl)]
    exact dropTrailing_append_singleton (l := []) h
  · exact dropTrailing_append_of_ne_nil [a] hl

/-- **Nothing is dropped** exactly if the last element is outside the class. -/
theorem dropTrailing_eq_self_iff {l : List α} :
    dropTrailing p l = l ↔ ∀ a ∈ l.getLast?, p a = false := by
  rcases List.eq_nil_or_concat l with rfl | ⟨k, a, rfl⟩
  · simp
  · rw [List.concat_eq_append]
    constructor
    · intro h b hb
      have hba : a = b := by simpa using hb
      subst hba
      by_contra hp
      rw [Bool.not_eq_false] at hp
      have hlength := congrArg List.length h
      rw [dropTrailing_append_of_all k (by simpa using hp)] at hlength
      have := (dropTrailing_isPrefix p k).length_le
      simp at hlength
      omega
    · intro h
      exact dropTrailing_append_singleton (h a (by simp))

/-- What stays keeps nothing of the class at its end. -/
@[simp]
theorem dropTrailing_dropTrailing (l : List α) :
    dropTrailing p (dropTrailing p l) = dropTrailing p l := by
  rw [dropTrailing, dropTrailing, List.reverse_reverse, List.dropWhile_idempotent]

namespace Text

/-- A text that is not all white space keeps its trailing space when it is trimmed at the start. -/
theorem trailingSpace_trimStart {cs : List Char} (h : trim cs ≠ []) :
    trailingSpace (trimStart cs) = trailingSpace cs := by
  rw [trailingSpace, trailingSpace, ← leadingSpace_append_trimStart cs,
    takeTrailing_append_of_ne_nil _ h, leadingSpace_append_trimStart]

/-- **Trimming loses only the space at both ends.** -/
theorem leadingSpace_append_trim_append_trailingSpace {cs : List Char} (h : trim cs ≠ []) :
    leadingSpace cs ++ (trim cs ++ trailingSpace cs) = cs := by
  rw [← trailingSpace_trimStart h, trim, trimEnd_append_trailingSpace,
    leadingSpace_append_trimStart]

/-- What is trimmed off is white space. -/
theorem exists_eq_append_trim (cs : List Char) : ∃ lead trail,
    (∀ c ∈ lead, isWhiteSpace c = true) ∧ (∀ c ∈ trail, isWhiteSpace c = true) ∧
      cs = lead ++ (trim cs ++ trail) :=
  ⟨leadingSpace cs, trailingSpace (trimStart cs), fun _ hc => List.mem_takeWhile_imp hc,
    fun _ hc => of_mem_takeTrailing hc, by
      rw [trim, trimEnd_append_trailingSpace, leadingSpace_append_trimStart]⟩

/-- Trimming leaves nothing exactly of white space. -/
theorem trim_eq_nil_iff {cs : List Char} : trim cs = [] ↔ ∀ c ∈ cs, isWhiteSpace c = true := by
  constructor
  · intro h
    obtain ⟨lead, trail, hlead, htrail, hcs⟩ := exists_eq_append_trim cs
    rw [h, List.nil_append] at hcs
    rw [hcs]
    exact List.forall_mem_append.mpr ⟨hlead, htrail⟩
  · intro h
    rw [trim, trimStart, List.dropWhile_eq_nil_iff.mpr h]
    rfl

/-- **Trimming leaves no white space at the ends.** -/
theorem trim_trim (cs : List Char) : trim (trim cs) = trim cs := by
  by_cases hnil : trim cs = []
  · rw [hnil]
    rfl
  have hstart : trimStart (trim cs) = trim cs := by
    obtain ⟨rest, hrest⟩ := dropTrailing_isPrefix isWhiteSpace (trimStart cs)
    have hhead := List.head?_dropWhile_not isWhiteSpace cs
    obtain ⟨c, tail, hcut⟩ := List.exists_cons_of_ne_nil hnil
    change trim cs ++ rest = trimStart cs at hrest
    rw [show cs.dropWhile isWhiteSpace = trim cs ++ rest from hrest.symm, hcut] at hhead
    rw [hcut, trimStart, List.dropWhile_cons_of_neg (by simpa using hhead)]
  rw [trim, hstart]
  exact dropTrailing_dropTrailing _

/-- Trimming stops at the last character that is not white space. -/
theorem trim_append_cons {c : Char} (hc : isWhiteSpace c = false) (cs : List Char) {gap : List Char}
    (hgap : ∀ d ∈ gap, isWhiteSpace d = true) : trim (cs ++ c :: gap) = trimStart cs ++ [c] := by
  have hstart : trimStart (cs ++ c :: gap) = trimStart cs ++ [c] ++ gap := by
    rw [trimStart, trimStart, List.dropWhile_append, List.dropWhile_cons_of_neg (by simp [hc])]
    split
    · next hnil => rw [List.isEmpty_iff.mp hnil]; rfl
    · simp
  rw [trim, hstart, trimEnd, dropTrailing_append_of_all _ hgap, dropTrailing_append_singleton hc]

end Text

end LosslessCss
