import LosslessCss.Proofs.ListPieces

/-!
# Joining the items of a list again

A list is edited item by item: its text is split, items are changed, and the items are joined with
commas again.  Joining and splitting gives the same items, provided that each comma that is put
between two items separates them (`Split.AreItems.split_join_iff`).

Nothing is open behind a stretch that is followed by a separator, and trimming leaves no string and no
parenthesis open.  But white space may be escaped, and trimming takes it from behind its backslash
(`Split.behind_trim`).  So an item may end inside an escape, and it does exactly where the last
character in front of the comma that is not white space is a backslash that counts.

## Main Definitions

* `Split.AreItems` : texts as the items of a list

## Main Statements

* `Split.behind_trim` : what may be open behind an item
* `Split.AreItems.split_join_iff`
* `splitCommas_join`
-/

namespace LosslessCss

open Text (isWhiteSpace trim trimStart)

namespace Value.Split

open Token (dangles)

variable {separators front s cs : List Char} {c : Char} {ss ps : List (List Char)}

/-! ### What is open behind an item -/

/-- **What may be open behind an item** whose stretch leaves nothing open: at most an escape. -/
theorem behind_trim (h : behind s = {}) :
    behind (trim s) = {} ∨ behind (trim s) = { escaped := true } := by
  obtain ⟨lead, trail, hlead, htrail, hs⟩ := Text.exists_eq_append_trim s
  have hbehind : trail.foldl Context.step (behind (trim s)) = {} := by
    rw [← behind_append, ← behind_append_of_top (behind_of_blank hlead), ← hs, h]
  have hquote : ∀ q ∈ (behind (trim s)).quote, isQuote q = true := isQuote_of_mem_behind
  generalize behind (trim s) = x at hbehind hquote
  obtain ⟨n, quote, escaped⟩ := x
  cases escaped with
  | false =>
    rw [Context.foldl_step_blank n hquote htrail] at hbehind
    exact .inl hbehind
  | true =>
    cases trail with
    | nil => cases hbehind
    | cons c trail =>
      -- The first character of the white space is the one that is escaped.
      rw [List.foldl_cons, Context.step_of_escaped,
        Context.foldl_step_blank n hquote (List.forall_mem_cons.mp htrail).2] at hbehind
      obtain ⟨rfl, rfl, -⟩ := Context.mk.inj hbehind
      exact .inr rfl

theorem IsStretch.behind_eq {rest : List Char} (h : IsStretch separators cs front s (c :: rest)) :
    behind s = {} := by
  have hlevel := (h.stops c rfl).level.behind_eq
  rwa [behind_append_of_top h.starts.behind_eq] at hlevel

/-! ### Joining -/

/-- **Texts as the items of a list**: they are trimmed and nothing separates in them.  Behind all but
the last one at most an escape is open. -/
structure AreItems (separators : List Char) (ps : List (List Char)) : Prop where
  ne_nil : ps ≠ []
  uncut : ∀ p ∈ ps, Uncut separators p
  trimmed : ∀ p ∈ ps, trim p = p
  closed : ∀ p ∈ ps.dropLast, behind p = {} ∨ behind p = { escaped := true }

/-- The items of a list are such texts. -/
theorem exists_areItems (separators : List Char) (value : String) :
    ∃ ps, split separators true value = ps.map String.ofList ∧ AreItems separators ps := by
  obtain ⟨ss, hss⟩ := exists_stretches separators value.toList
  refine ⟨(kept true ss).map trim, by rw [split_eq hss, List.map_map]; rfl,
    by simp [kept_true hss.ne_nil], ?_, ?_, ?_⟩
  · rintro _ hp
    obtain ⟨s, hs, rfl⟩ := List.mem_map.mp hp
    exact (hss.uncut s (mem_of_mem_kept hs)).trim
  · rintro _ hp
    obtain ⟨s, -, rfl⟩ := List.mem_map.mp hp
    exact Text.trim_trim s
  · rw [kept_true hss.ne_nil, List.map_append, List.map_singleton, List.dropLast_concat]
    rintro _ hp
    obtain ⟨s, hs, rfl⟩ := List.mem_map.mp hp
    obtain ⟨front, c, rest, hstretch⟩ := hss.mem_dropLast_iff.mp (List.mem_of_mem_filter hs)
    exact behind_trim hstretch.behind_eq

namespace AreItems

theorem tail {p q : List Char} (h : AreItems separators (p :: q :: ps)) :
    AreItems separators (q :: ps) where
  ne_nil := List.cons_ne_nil q ps
  uncut := (List.forall_mem_cons.mp h.uncut).2
  trimmed := (List.forall_mem_cons.mp h.trimmed).2
  closed := (List.forall_mem_cons.mp h.closed).2

/-- **The stretches of items that are joined.**  A separator behind an item that ends inside an escape
does not separate, and each such separator makes one stretch of two. -/
theorem exists_stretches_join (h : AreItems separators ps) (hmem : c ∈ separators)
    (hc : isMarkup c = false) : ∃ ss, Stretches separators ([c].intercalate ps) ss ∧
      ss.length + ps.dropLast.countP dangles = ps.length ∧
      (ps.dropLast.countP dangles = 0 → ss = ps) := by
  induction ps with
  | nil => exact absurd rfl h.ne_nil
  | cons p ps ih =>
    have hp : Uncut separators p := h.uncut p List.mem_cons_self
    cases ps with
    | nil =>
      refine ⟨[p], ?_, rfl, fun _ => rfl⟩
      rw [List.intercalate_singleton]
      exact .last hp
    | cons q ps =>
      obtain ⟨ss, hss, hlength, heq⟩ := ih h.tail
      rw [List.intercalate_cons_cons, List.dropLast_cons_cons, List.countP_cons, ← escaped_behind p]
      rcases h.closed p List.mem_cons_self with hopen | hopen
      · refine ⟨p :: ss, ?_, ?_, fun hzero => ?_⟩
        · rw [List.append_assoc]
          exact .cons hp ⟨hmem, hc, level_iff.mpr hopen⟩ hss
        · simp [hopen, ← hlength]
          omega
        · rw [heq (by simpa [hopen] using hzero)]
      · obtain ⟨s, ss, rfl⟩ := List.exists_cons_of_ne_nil hss.ne_nil
        have hglued : Uncut separators (p ++ [c]) := hp.snoc fun h => by
          rw [h.level.behind_eq] at hopen
          cases hopen
        refine ⟨_, hss.prepend hglued (by rw [behind_snoc, hopen]; rfl), ?_, fun hzero => ?_⟩
        · simp [hopen, ← hlength]
          omega
        · simp [hopen] at hzero

/-- **Joining and splitting again** gives back the items exactly if none but the last is empty or ends
inside an escape. -/
theorem split_join_iff (h : AreItems separators ps) (hmem : c ∈ separators)
    (hc : isMarkup c = false) {value : String} (hvalue : value.toList = [c].intercalate ps) :
    split separators true value = ps.map String.ofList ↔
      ∀ p ∈ ps.dropLast, p ≠ [] ∧ dangles p = false := by
  obtain ⟨ss, hss, hlength, heq⟩ := h.exists_stretches_join hmem hc
  rw [split_eq (hvalue ▸ hss)]
  constructor
  · intro hsplit
    -- Each item is found again, so there are as many stretches that are kept as items.
    have hkept := congrArg List.length hsplit
    rw [kept_true hss.ne_nil, List.length_map, List.length_map, List.length_append,
      List.length_singleton] at hkept
    have hle := ss.dropLast.length_filter_le fun s => !s.isEmpty
    have hinit := ss.length_dropLast
    have hpos := List.length_pos_iff.mpr hss.ne_nil
    have hzero : ps.dropLast.countP dangles = 0 := by omega
    have hfull : (ss.dropLast.filter fun s => !s.isEmpty).length = ss.dropLast.length := by omega
    obtain rfl := heq hzero
    intro p hp
    have hp' := List.length_filter_eq_length_iff.mp hfull p hp
    exact ⟨by simpa using hp', by simpa using List.countP_eq_zero.mp hzero p hp⟩
  · intro hall
    have hzero : ps.dropLast.countP dangles = 0 :=
      List.countP_eq_zero.mpr fun p hp => by simp [(hall p hp).2]
    have hfull : ps.dropLast.filter (fun s => !s.isEmpty) = ps.dropLast :=
      List.filter_eq_self.mpr fun p hp => by simpa using (hall p hp).1
    rw [heq hzero, kept_true h.ne_nil, hfull, List.dropLast_append_getLast]
    exact List.map_congr_left fun p hp => by rw [item, h.trimmed p hp]

end AreItems

/-! ### Items that end inside an escape -/

/-- **An item ends inside an escape** exactly if what is trimmed off behind it starts with a character
that is escaped. -/
theorem dangles_trim_iff (h : behind s = {}) : dangles (trim s) = true ↔
    ∃ front w gap, s = front ++ '\\' :: w :: gap ∧ Level 0 front ∧ isWhiteSpace w = true ∧
      ∀ c ∈ gap, isWhiteSpace c = true := by
  constructor
  · intro hdangles
    have hopen : behind (trim s) = { escaped := true } := by
      refine (behind_trim h).resolve_left fun hclosed => ?_
      rw [← escaped_behind, hclosed] at hdangles
      cases hdangles
    obtain ⟨lead, trail, hlead, htrail, hs⟩ := Text.exists_eq_append_trim s
    have htop := behind_of_blank hlead
    have hread := reading_behind (trim s)
    rw [hopen] at hread
    generalize trim s = item at hopen hread hs
    cases hread with
    | @escape _ front hlevel =>
      cases trail with
      | nil =>
        rw [hs, List.append_nil, behind_append_of_top htop, hopen] at h
        cases h
      | cons w gap =>
        obtain ⟨hw, hgap⟩ := List.forall_mem_cons.mp htrail
        refine ⟨lead ++ front, w, gap, by rw [hs]; simp, ?_, hw, hgap⟩
        rw [level_iff, behind_append_of_top htop, hlevel.behind_eq]
  · rintro ⟨front, w, gap, rfl, hlevel, hw, hgap⟩
    have hlead : behind (Text.leadingSpace front) = {} :=
      behind_of_blank fun c hc => List.mem_takeWhile_imp hc
    have hfront := hlevel.behind_eq
    rw [← Text.leadingSpace_append_trimStart front, behind_append_of_top hlead] at hfront
    rw [Text.trim_append_cons (by decide) front (List.forall_mem_cons.mpr ⟨hw, hgap⟩),
      ← escaped_behind, behind_snoc, hfront]
    rfl

/-- The stretch of a comma with escaped white space in front. -/
theorem exists_isStretch_comma {value rest : List Char} {w : Char} {gap : List Char}
    (hvalue : value = front ++ '\\' :: w :: (gap ++ ',' :: rest)) (hlevel : Level 0 front)
    (hw : isWhiteSpace w = true) (hgap : ∀ c ∈ gap, isWhiteSpace c = true) :
    ∃ f t, front = f ++ t ∧ IsStretch [','] value f (t ++ '\\' :: w :: gap) (',' :: rest) := by
  obtain ⟨f, t, rfl, hstarts, huncut⟩ := exists_starts [','] front
  have hnot : ∀ c ∈ '\\' :: w :: gap, c ≠ ',' := by
    rintro c hc rfl
    rcases List.mem_cons.mp hc with hc | hc
    · cases hc
    · have hspace : ∀ c ∈ w :: gap, isWhiteSpace c = true := List.forall_mem_cons.mpr ⟨hw, hgap⟩
      exact absurd (hspace ',' hc) (by decide)
  refine ⟨f, t, rfl, by rw [hvalue]; simp, hstarts, ?_, ?_⟩
  · refine uncut_append_iff.mpr ⟨huncut, fun a c b hcut hc => ?_⟩
    exact hnot c (by rw [hcut]; simp) (List.mem_singleton.mp hc.mem)
  · rintro c hc
    obtain rfl := Option.some.inj hc
    have hbehind := behind_append_blank (hlevel.escape w).behind_eq hgap
    exact ⟨by decide, by decide, level_iff.mpr (by rw [← hbehind]; simp)⟩

end Value.Split

namespace Value

open Split
open Token (dangles)

/-- **Where an item of a list ends inside an escape**: where the last character in front of a comma
that is not white space is a backslash, and the character behind it is escaped. -/
theorem exists_dangles_iff (value : String) :
    (∃ p ∈ (splitCommas value).dropLast, dangles p.toList = true) ↔ ∃ front w gap behind,
      value.toList = front ++ '\\' :: w :: (gap ++ ',' :: behind) ∧ Level 0 front ∧
        isWhiteSpace w = true ∧ ∀ c ∈ gap, isWhiteSpace c = true := by
  obtain ⟨ss, hss⟩ := exists_stretches [','] value.toList
  rw [splitCommas, dropLast_split_true hss]
  constructor
  · rintro ⟨_, hp, hdangles⟩
    obtain ⟨s, hs, rfl⟩ := List.mem_map.mp hp
    rw [item, String.toList_ofList] at hdangles
    obtain ⟨f, c, rest, h⟩ := hss.mem_dropLast_iff.mp (List.mem_of_mem_filter hs)
    obtain ⟨t, w, gap, rfl, hlevel, hw, hgap⟩ := (dangles_trim_iff h.behind_eq).mp hdangles
    obtain rfl : c = ',' := List.mem_singleton.mp (h.stops c rfl).mem
    refine ⟨f ++ t, w, gap, rest, by rw [h.text]; simp, ?_, hw, hgap⟩
    rw [level_iff, behind_append_of_top h.starts.behind_eq, hlevel.behind_eq]
  · rintro ⟨front, w, gap, rest, hvalue, hlevel, hw, hgap⟩
    obtain ⟨f, t, rfl, h⟩ := exists_isStretch_comma hvalue hlevel hw hgap
    have hmem := hss.mem_dropLast_iff.mpr ⟨_, _, _, h⟩
    refine ⟨_, List.mem_map_of_mem (List.mem_filter.mpr ⟨hmem, by simp⟩), ?_⟩
    rw [level_iff, behind_append_of_top h.starts.behind_eq, ← level_iff] at hlevel
    rw [item, String.toList_ofList]
    exact (dangles_trim_iff h.behind_eq).mpr ⟨t, w, gap, rfl, hlevel, hw, hgap⟩

theorem splitCommas_join_iff (value : String) :
    splitCommas (",".intercalate (splitCommas value)) = splitCommas value ↔
      ∀ p ∈ (splitCommas value).dropLast, p ≠ "" ∧ dangles p.toList = false := by
  obtain ⟨ps, hps, hitems⟩ := exists_areItems [','] value
  change splitCommas value = _ at hps
  have hjoin : (",".intercalate (ps.map String.ofList)).toList = [','].intercalate ps := by
    rw [String.toList_intercalate, List.map_map]
    simp [Function.comp_def]
  rw [hps, splitCommas, hitems.split_join_iff (List.mem_singleton_self ',') (by decide) hjoin,
    ← List.map_dropLast, List.forall_mem_map]
  refine forall₂_congr fun p _ => ?_
  rw [String.toList_ofList, ne_eq, ne_eq, ← String.toList_inj, String.toList_ofList,
    String.toList_empty]

/-- **Splitting, joining and splitting again** gives the same items exactly if no item but the last is
empty or ends inside an escape.  The second happens where an escaped character that is white space
stands in front of a comma, with at most white space between. -/
theorem splitCommas_join (value : String) :
    (splitCommas (",".intercalate (splitCommas value)) = splitCommas value ↔
      ∀ p ∈ (splitCommas value).dropLast, p ≠ "" ∧ dangles p.toList = false) ∧
    ((∃ p ∈ (splitCommas value).dropLast, dangles p.toList = true) ↔ ∃ front w gap behind,
      value.toList = front ++ '\\' :: w :: (gap ++ ',' :: behind) ∧ Level 0 front ∧
        isWhiteSpace w = true ∧ ∀ c ∈ gap, isWhiteSpace c = true) :=
  ⟨splitCommas_join_iff value, exists_dangles_iff value⟩

/-- The space that is escaped in `a\ ,b` is trimmed off, and the comma is escaped instead. -/
theorem splitCommas_join_escaped : splitCommas "a\\ ,b" = ["a\\", "b"] ∧
    ",".intercalate ["a\\", "b"] = "a\\,b" ∧ splitCommas "a\\,b" = ["a\\,b"] := by
  decide +kernel

end Value

end LosslessCss
