import LosslessCss.Proofs.ListItems

/-!
# The items of a list as pieces of its text

A text falls into the items of its list and what lies between them.  What lies between them is white
space and separators that count, and no separator that counts lies in an item (`Split.LaidOut`).  An
item means by itself what it means in its place: nothing is open where a stretch starts, and the white
space that is trimmed off in front of it opens nothing, so an item is split into itself alone.

Emptiness is tested before white space is trimmed off.  So an item is empty where a stretch is white
space that does not separate, as a carriage return between two spaces.

## Main Definitions

* `Split.LaidOut` : pieces of a text, in their order

## Main Statements

* `split_laidOut`
* `empty_mem_split_iff`
-/

namespace LosslessCss.Value

open Text (isWhiteSpace trim)

namespace Split

variable {separators front gap s cs text : List Char} {ss ps : List (List Char)}

/-- **Pieces of a text**, in their order, where the text stands behind `front`.  A character outside
of all pieces is white space or separates, and nothing separates in a piece. -/
inductive LaidOut (separators : List Char) : List Char → List Char → List (List Char) → Prop
  | nil {front : List Char} : LaidOut separators front [] []
  | gap {front cs : List Char} {c : Char} {ps : List (List Char)}
      (hc : isWhiteSpace c = true ∨ Separates separators front c)
      (h : LaidOut separators (front ++ [c]) cs ps) : LaidOut separators front (c :: cs) ps
  | piece {front p cs : List Char} {ps : List (List Char)}
      (hp : ∀ a c b, p = a ++ c :: b → ¬Separates separators (front ++ a) c)
      (h : LaidOut separators (front ++ p) cs ps) : LaidOut separators front (p ++ cs) (p :: ps)

/-- Nothing separates in what trimming leaves. -/
theorem Uncut.trim (h : Uncut separators s) : Uncut separators (trim s) := by
  obtain ⟨lead, trail, hlead, -, hs⟩ := Text.exists_eq_append_trim s
  rw [hs] at h
  intro a c b hcut
  rw [← separates_append_iff (behind_of_blank hlead)]
  exact (uncut_append_iff.mp h).2 a c (b ++ trail) (by rw [hcut]; simp)

namespace LaidOut

theorem blank (hgap : ∀ c ∈ gap, isWhiteSpace c = true)
    (h : LaidOut separators (front ++ gap) cs ps) : LaidOut separators front (gap ++ cs) ps := by
  induction gap generalizing front with
  | nil => simpa using h
  | cons c gap ih =>
    obtain ⟨hc, hgap⟩ := List.forall_mem_cons.mp hgap
    exact .gap (.inl hc) (ih hgap (by simpa using h))

/-- **A stretch is white space with an item in it.** -/
theorem stretch (hfront : behind front = {}) (hs : Uncut separators s)
    (h : LaidOut separators (front ++ s) cs ps) :
    LaidOut separators front (s ++ cs) (trim s :: ps) := by
  obtain ⟨lead, trail, hlead, htrail, hcut⟩ := Text.exists_eq_append_trim s
  have htop := behind_append_blank hfront hlead
  have hbehind : LaidOut separators ((front ++ lead) ++ trim s) (trail ++ cs) ps :=
    blank htrail (by rwa [List.append_assoc, List.append_assoc, ← hcut])
  have hpiece := piece (fun a c b hp => by
    rw [separates_append_iff htop]
    exact hs.trim a c b hp) hbehind
  have htext : s ++ cs = lead ++ (trim s ++ (trail ++ cs)) := by
    conv_lhs => rw [hcut]
    simp
  rw [htext]
  exact blank hlead hpiece

end LaidOut

/-- **What is kept of the stretches** is laid out in the text. -/
theorem Stretches.laidOut (h : Stretches separators cs ss) (hfront : behind front = {})
    (keepLast : Bool) : LaidOut separators front cs ((kept keepLast ss).map trim) := by
  induction h generalizing front with
  | @last s hs =>
    rw [kept_singleton]
    split
    · simpa using LaidOut.stretch hfront hs .nil
    · next hempty =>
      obtain rfl : s = [] := by simp_all
      exact .nil
  | @cons s cs c ss hs hc hcs ih =>
    have hsep : Separates separators (front ++ s) c := (separates_append_iff hfront).mpr hc
    have hrest := LaidOut.gap (.inr hsep) (ih hsep.behind_snoc)
    rw [kept_cons _ _ hcs.ne_nil]
    split
    · next hempty =>
      obtain rfl := List.isEmpty_iff.mp hempty
      simpa using hrest
    · exact .stretch hfront hs hrest

theorem Stretches.uncut (h : Stretches separators cs ss) : ∀ s ∈ ss, Uncut separators s := by
  induction h with
  | last hs => exact List.forall_mem_singleton.mpr hs
  | cons hs _ _ ih => exact List.forall_mem_cons.mpr ⟨hs, ih⟩

/-- An item is empty exactly if its stretch is white space. -/
theorem item_eq_empty_iff : item s = "" ↔ ∀ c ∈ s, isWhiteSpace c = true := by
  rw [← Text.trim_eq_nil_iff, item, ← String.toList_inj, String.toList_ofList, String.toList_empty]

/-- The items of the stretches that are not empty. -/
theorem empty_mem_items_iff : "" ∈ (ss.filter fun s => !s.isEmpty).map item ↔
    ∃ gap ∈ ss, gap ≠ [] ∧ ∀ c ∈ gap, isWhiteSpace c = true := by
  simp [item_eq_empty_iff, and_assoc]

/-- **A blank** is white space that does not separate, at least one character of it. -/
def IsBlank (separators gap : List Char) : Prop :=
  gap ≠ [] ∧ ∀ c ∈ gap, isWhiteSpace c = true ∧ c ∉ separators

/-- White space in a stretch does not separate. -/
theorem IsStretch.isBlank_iff {rest : List Char} (h : IsStretch separators text front s rest) :
    IsBlank separators s ↔ s ≠ [] ∧ ∀ c ∈ s, isWhiteSpace c = true := by
  refine ⟨fun hblank => ⟨hblank.1, fun c hc => (hblank.2 c hc).1⟩,
    fun ⟨hne, hspace⟩ => ⟨hne, fun c hc => ⟨hspace c hc, fun hmem => ?_⟩⟩⟩
  obtain ⟨a, b, rfl⟩ := List.append_of_mem hc
  have hlevel : Level 0 a :=
    level_iff.mpr (behind_of_blank fun d hd => hspace d (List.mem_append_left _ hd))
  exact h.uncut a c b rfl ⟨hmem, isMarkup_of_isWhiteSpace (hspace c hc), hlevel⟩

theorem empty_mem_split_false_iff (separators : List Char) (value : String) :
    "" ∈ split separators false value ↔ ∃ front gap rest,
      IsStretch separators value.toList front gap rest ∧ IsBlank separators gap := by
  obtain ⟨ss, hss⟩ := exists_stretches separators value.toList
  rw [split_eq hss, kept_false, empty_mem_items_iff]
  simp only [hss.mem_iff]
  constructor
  · rintro ⟨gap, ⟨front, rest, h⟩, hblank⟩
    exact ⟨front, gap, rest, h, h.isBlank_iff.mpr hblank⟩
  · rintro ⟨front, gap, rest, h, hblank⟩
    exact ⟨gap, ⟨front, rest, h⟩, h.isBlank_iff.mp hblank⟩

theorem empty_mem_dropLast_split_true_iff (separators : List Char) (value : String) :
    "" ∈ (split separators true value).dropLast ↔ ∃ front gap c rest,
      IsStretch separators value.toList front gap (c :: rest) ∧ IsBlank separators gap := by
  obtain ⟨ss, hss⟩ := exists_stretches separators value.toList
  rw [dropLast_split_true hss, empty_mem_items_iff]
  simp only [hss.mem_dropLast_iff]
  constructor
  · rintro ⟨gap, ⟨front, c, rest, h⟩, hblank⟩
    exact ⟨front, gap, c, rest, h, h.isBlank_iff.mpr hblank⟩
  · rintro ⟨front, gap, c, rest, h, hblank⟩
    exact ⟨gap, ⟨front, c, rest, h⟩, h.isBlank_iff.mp hblank⟩

end Split

section

open Split

variable (separators : List Char) (value : String)

/-- **The items of a list in its text**, for all separators and with the last stretch or without it.
The stretches that the scan notes start and stop between characters.  The items stand in the text in
their order and apart from each other, with white space and separators that count around them and none
that counts inside.  An item that is not empty is split into itself. -/
theorem split_laidOut (keepLast : Bool) :
    splitInPlace? separators keepLast value = some (split separators keepLast value) ∧
      LaidOut separators [] value.toList ((split separators keepLast value).map String.toList) ∧
      ∀ p ∈ split separators keepLast value, p ≠ "" → split separators keepLast p = [p] := by
  obtain ⟨ss, hss⟩ := exists_stretches separators value.toList
  refine ⟨splitInPlace?_eq separators keepLast value, ?_, fun p hp hne => ?_⟩
  · have hitems : (split separators keepLast value).map String.toList = (kept keepLast ss).map trim := by
      rw [split_eq hss, List.map_map]
      exact List.map_congr_left fun s _ => String.toList_ofList
    rw [hitems]
    exact hss.laidOut behind_nil keepLast
  · rw [split_eq hss] at hp
    obtain ⟨s, hs, rfl⟩ := List.mem_map.mp hp
    have hself : Stretches separators (item s).toList [trim s] := by
      rw [item, String.toList_ofList]
      exact .last (hss.uncut s (mem_of_mem_kept hs)).trim
    have hempty : (trim s).isEmpty = false := by
      refine List.isEmpty_eq_false_iff.mpr fun hnil => hne ?_
      rw [item, hnil]
    rw [split_eq hself, kept_singleton, hempty, Bool.not_false, Bool.or_true, if_pos rfl,
      List.map_singleton, item, item, Text.trim_trim]

/-- A parenthesis among the separators is a parenthesis all the same. -/
theorem split_closing_parenthesis : split [')'] false "a)b" = ["a)b"] ∧
    "a)b".toList = ['a'] ++ ')' :: ['b'] ∧ ')' ∈ [')'] ∧ Level 0 ['a'] :=
  ⟨by decide +kernel, by decide +kernel, by decide, level_iff.mpr (by decide)⟩

/-- **Where an item is empty**: where a stretch is a blank.  If the last stretch is asked for it may
be empty also by itself, so it is left out there. -/
theorem empty_mem_split_iff :
    ("" ∈ split separators false value ↔ ∃ front gap rest,
      IsStretch separators value.toList front gap rest ∧ IsBlank separators gap) ∧
    ("" ∈ (split separators true value).dropLast ↔ ∃ front gap c rest,
      IsStretch separators value.toList front gap (c :: rest) ∧ IsBlank separators gap) ∧
    ("" ∈ splitSpaces value ↔ ∃ front gap rest,
      IsStretch [' ', '\n', '\t'] value.toList front gap rest ∧ IsBlank [' ', '\n', '\t'] gap) :=
  ⟨empty_mem_split_false_iff separators value, empty_mem_dropLast_split_true_iff separators value,
    empty_mem_split_false_iff _ value⟩

/-- A carriage return between two spaces is an empty item, and so is a space between two commas. -/
theorem empty_mem_splitSpaces : splitSpaces "a \r b" = ["a", "", "b"] ∧
    splitCommas "a, ,b" = ["a", "", "b"] := by
  decide +kernel

end

end LosslessCss.Value
