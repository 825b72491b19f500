/-!
# Trailing runs

Statements end in blank space that belongs to the gap after them, and values end in blank space that
belongs to a mark after them.  In both cases a list is cut in front of its longest suffix of one
class.  `dropTrailing` is what stays and `takeTrailing` is what is cut off; the two always add up to
the list, so whoever cuts with them loses nothing.
-/

namespace LosslessCss

universe u

variable {α : Type u}

/-- The list without its longest suffix of elements in the class `p`. -/
def dropTrailing (p : α → Bool) (l : List α) : List α :=
  (l.reverse.dropWhile p).reverse

/-- The longest suffix of elements in the class `p`. -/
def takeTrailing (p : α → Bool) (l : List α) : List α :=
  (l.reverse.takeWhile p).reverse

/-- **Cutting loses nothing.**  What stays followed by what is cut off is the list. -/
@[simp] theorem dropTrailing_append_takeTrailing (p : α → Bool) (l : List α) :
    dropTrailing p l ++ takeTrailing p l = l := by
  rw [dropTrailing, takeTrailing, ← List.reverse_append, List.takeWhile_append_dropWhile,
    List.reverse_reverse]

@[simp] theorem dropTrailing_nil (p : α → Bool) : dropTrailing p [] = [] := rfl

@[simp] theorem takeTrailing_nil (p : α → Bool) : takeTrailing p [] = [] := rfl

end LosslessCss
