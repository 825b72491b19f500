import LosslessCss.Proofs.Levels
import LosslessCss.Proofs.Slices

/-!
# The stretches of a list and its items

Between the separators that count lie the stretches of a text.  A text has its stretches in one way
(`Split.Stretches.unique`), so all that cuts at the separators finds the same ones: the cut that goes
through the characters (`Split.stretches_cut`) and the scan that notes byte offsets
(`splitInPlace?_eq`).

Nothing is open behind a separator that counts.  A stretch is therefore told by the text alone: by
what stands in front of it and behind it (`Split.IsStretch`), and texts that end with a separator can
be put in front without a change (`Split.IsStretch.shift`).

The items are the stretches that are kept, without the white space at their ends.

## Main Definitions

* `Split.Uncut`, `Split.Stretches` : nothing separates; the stretches of a text
* `Split.IsStretch` : a stretch in its text
* `Split.kept`, `Split.item` : which stretches are kept, and the item of a stretch

## Main Statements

* `Split.Stretches.unique`
* `Split.Stretches.mem_iff`, `Split.Stretches.mem_dropLast_iff` : where stretches stand
* `Split.split_eq` : the items of a list
* `splitInPlace?_eq` : the scan finds the items
-/

namespace LosslessCss

open String (utf8Len utf8Len_append)

namespace Value.Split

/-! ### Stretches -/

/-- **Nothing separates** in a text. -/
def Uncut (separators text : List Char) : Prop :=
  ∀ front c rest, text = front ++ c :: rest → ¬Separates separators front c

/-- **The stretches of a text** are what lies between the separators that count. -/
inductive Stretches (separators : List Char) : List Char → List (List Char) → Prop
  | last {s : List Char} (h : Uncut separators s) : Stretches separators s [s]
  | cons {s cs : List Char} {c : Char} {ss : List (List Char)} (h : Uncut separators s)
      (hc : Separates separators s c) (hcs : Stretches separators cs ss) :
      Stretches separators (s ++ c :: cs) (s :: ss)

section

variable {separators front a b s cs ds : List Char} {c : Char} {ss ts : List (List Char)}

theorem separates_append_iff (h : behind a = {}) :
    Separates separators (a ++ front) c ↔ Separates separators front c := by
  rw [separates_iff, separates_iff, behind_append_of_top h]

/-- A separator that counts leaves nothing open. -/
theorem Separates.behind_snoc (h : Separates separators s c) : behind (s ++ [c]) = {} := by
  rw [Split.behind_snoc, level_iff.mp h.level, Context.step_of_not_isMarkup _ h.isMarkup]

theorem uncut_nil (separators : List Char) : Uncut separators [] := by
  intro front c rest h
  simp at h

/-- Nothing separates in a text exactly if nothing does in front of a place and behind it. -/
theorem uncut_append_iff : Uncut separators (a ++ b) ↔ Uncut separators a ∧
    ∀ front c rest, b = front ++ c :: rest → ¬Separates separators (a ++ front) c := by
  constructor
  · refine fun h => ⟨fun front c rest hcut => h front c (rest ++ b) (by rw [hcut]; simp), ?_⟩
    exact fun front c rest hcut => h (a ++ front) c rest (by rw [hcut, List.append_assoc])
  · rintro ⟨ha, hb⟩ front c rest hcut
    rcases List.append_eq_append_iff.mp hcut with ⟨more, rfl, hmore⟩ | ⟨more, rfl, hmore⟩
    · exact hb more c rest hmore
    · cases more with
      | nil =>
        rw [List.append_nil] at hb
        simpa using hb [] c rest hmore.symm
      | cons d more =>
        obtain ⟨rfl, -⟩ := List.cons.inj hmore
        exact ha front c more rfl

theorem Uncut.snoc (h : Uncut separators s) (hc : ¬Separates separators s c) :
    Uncut separators (s ++ [c]) := by
  refine uncut_append_iff.mpr ⟨h, fun front d rest hcut => ?_⟩
  obtain ⟨rfl, hcut⟩ | ⟨-, hnil⟩ := List.append_eq_singleton_iff.mp hcut.symm
  · obtain ⟨rfl, -⟩ := List.cons.inj hcut
    rwa [List.append_nil]
  · cases hnil

/-- Where nothing is open a text can be put in front. -/
theorem Uncut.append (ha : Uncut separators a) (htop : behind a = {}) (hb : Uncut separators b) :
    Uncut separators (a ++ b) :=
  uncut_append_iff.mpr ⟨ha, fun front c rest hcut => by
    rw [separates_append_iff htop]
    exact hb front c rest hcut⟩

/-- A separator that counts comes behind one stretch only. -/
theorem Separates.eq_of_append (hs : Uncut separators s) (hc : Separates separators s c)
    (ht : Uncut separators a) {d : Char} (hd : Separates separators a d)
    (h : s ++ c :: cs = a ++ d :: ds) : s = a ∧ c = d ∧ cs = ds := by
  rcases List.append_eq_append_iff.mp h with ⟨more, rfl, hmore⟩ | ⟨more, rfl, hmore⟩
  · cases more with
    | nil =>
      obtain ⟨rfl, rfl⟩ := List.cons.inj hmore
      exact ⟨(List.append_nil s).symm, rfl, rfl⟩
    | cons e more =>
      obtain ⟨rfl, -⟩ := List.cons.inj hmore
      exact absurd hc (ht s c more rfl)
  · cases more with
    | nil =>
      obtain ⟨rfl, rfl⟩ := List.cons.inj hmore
      exact ⟨List.append_nil a, rfl, rfl⟩
    | cons e more =>
      obtain ⟨rfl, -⟩ := List.cons.inj hmore
      exact absurd hd (hs a d more rfl)

namespace Stretches

/-- **A text has its stretches in one way.** -/
theorem unique (h : Stretches separators cs ss) (h' : Stretches separators cs ts) : ss = ts := by
  induction h generalizing ts with
  | last h =>
    cases h' with
    | last _ => rfl
    | cons _ hc _ => exact absurd hc (h _ _ _ rfl)
  | @cons s cs c ss hs hc _ ih =>
    generalize htext : s ++ c :: cs = text at h'
    cases h' with
    | last h => exact absurd hc (h _ _ _ htext.symm)
    | cons ht hd hrest =>
      obtain ⟨rfl, -, rfl⟩ := hc.eq_of_append hs ht hd htext
      rw [ih hrest]

theorem ne_nil (h : Stretches separators cs ss) : ss ≠ [] := by
  cases h <;> simp

/-- Stretches of two texts with a separator between them. -/
theorem append (h : Stretches separators cs ss) (hc : Separates separators cs c)
    (h' : Stretches separators ds ts) : Stretches separators (cs ++ c :: ds) (ss ++ ts) := by
  induction h with
  | last h => exact .cons h hc h'
  | @cons s cs d ss hs hd _ ih =>
    rw [List.append_cons s d cs, separates_append_iff hd.behind_snoc] at hc
    rw [List.append_assoc]
    exact .cons hs hd (ih hc)

/-- A text in which nothing is open makes the first stretch longer. -/
theorem prepend (ha : Uncut separators a) (htop : behind a = {})
    (h : Stretches separators cs (s :: ss)) : Stretches separators (a ++ cs) ((a ++ s) :: ss) := by
  cases h with
  | last h => exact .last (ha.append htop h)
  | cons h hc hcs =>
    rw [← List.append_assoc]
    exact .cons (ha.append htop h) ((separates_append_iff htop).mpr hc) hcs

end Stretches

end

theorem cut_cons (isSeparator : Char → Bool) (x : Context) (c : Char) (cs : List Char) :
    cut isSeparator x (c :: cs) =
      if x.isTop && isSeparator c && !isMarkup c then
        ([], (cut isSeparator x cs).1 :: (cut isSeparator x cs).2)
      else (c :: (cut isSeparator (x.step c) cs).1, (cut isSeparator (x.step c) cs).2) := rfl

/-- **Cutting finds the stretches.** -/
theorem stretches_cut {separators s : List Char} (h : Uncut separators s) (cs : List Char) :
    Stretches separators (s ++ cs) ((s ++ (cut separators.contains (behind s) cs).1) ::
      (cut separators.contains (behind s) cs).2) := by
  induction cs generalizing s with
  | nil =>
    simp only [cut, List.append_nil]
    exact .last h
  | cons c cs ih =>
    rw [cut_cons]
    by_cases hc : Separates separators s c
    · have hrest := ih (uncut_nil separators)
      rw [if_pos (separates_iff.mp hc), level_iff.mp hc.level, List.append_nil]
      exact .cons h hc hrest
    · have hrest := ih (h.snoc hc)
      rw [behind_snoc] at hrest
      rw [if_neg (separates_iff.not.mp hc)]
      simpa only [List.append_assoc, List.singleton_append] using hrest

theorem exists_stretches (separators cs : List Char) : ∃ ss, Stretches separators cs ss :=
  ⟨_, stretches_cut (uncut_nil separators) cs⟩

/-! ### Where stretches stand -/

/-- **A stretch may start** at the start of the text, and behind a separator that counts. -/
inductive Starts (separators : List Char) : List Char → Prop
  | text : Starts separators []
  | separator {before : List Char} {c : Char} (h : Separates separators before c) :
      Starts separators (before ++ [c])

/-- **A stretch in its text**: it starts where a stretch may start and goes on to a separator that
counts, or to the end of the text, and nothing separates in it. -/
structure IsStretch (separators text front s behind : List Char) : Prop where
  text : text = front ++ (s ++ behind)
  starts : Starts separators front
  uncut : Uncut separators s
  stops : ∀ c ∈ behind.head?, Separates separators (front ++ s) c

section

variable {separators front cs s rest : List Char} {c : Char} {ss : List (List Char)}

theorem Starts.behind_eq (h : Starts separators front) : behind front = {} := by
  cases h with
  | text => rfl
  | separator h => exact h.behind_snoc

/-- A stretch stays one with another stretch in front of its text. -/
theorem IsStretch.shift {s' : List Char} (h : IsStretch separators cs front s rest)
    (hc : Separates separators s' c) :
    IsStretch separators (s' ++ c :: cs) (s' ++ c :: front) s rest where
  text := by rw [h.text, List.append_assoc, List.cons_append]
  starts := by
    cases h.starts with
    | text => exact .separator hc
    | separator hd =>
      rw [List.append_cons, ← List.append_assoc]
      exact .separator ((separates_append_iff hc.behind_snoc).mpr hd)
  uncut := h.uncut
  stops d hd := by
    rw [List.append_cons, List.append_assoc, separates_append_iff hc.behind_snoc]
    exact h.stops d hd

theorem Stretches.exists_isStretch (h : Stretches separators cs ss) {before after : List (List Char)}
    (hss : ss = before ++ s :: after) :
    ∃ front rest, IsStretch separators cs front s rest ∧ (rest = [] ↔ after = []) := by
  induction h generalizing before with
  | @last s' huncut =>
    obtain ⟨rfl, hs⟩ | ⟨-, hnil⟩ := List.append_eq_singleton_iff.mp hss.symm
    · obtain ⟨rfl, rfl⟩ := List.cons.inj hs
      exact ⟨[], [], ⟨by simp, .text, huncut, by simp⟩, by simp⟩
    · cases hnil
  | @cons s' cs c ss huncut hc hcs ih =>
    cases before with
    | nil =>
      obtain ⟨rfl, rfl⟩ := List.cons.inj hss
      exact ⟨[], c :: cs, ⟨by simp, .text, huncut, by simpa using hc⟩, by simp [hcs.ne_nil]⟩
    | cons _ before =>
      obtain ⟨rfl, htail⟩ := List.cons.inj hss
      obtain ⟨front, rest, hstretch, hrest⟩ := ih htail
      exact ⟨_, rest, hstretch.shift hc, hrest⟩

theorem IsStretch.exists_append (h : IsStretch separators cs front s rest)
    (hss : Stretches separators cs ss) :
    ∃ before after, ss = before ++ s :: after ∧ (rest = [] ↔ after = []) := by
  obtain ⟨rfl, hstarts, huncut, hstops⟩ := h
  -- The stretches from the start of this one on.
  obtain ⟨after, hafter, hiff⟩ : ∃ after, Stretches separators (s ++ rest) (s :: after) ∧
      (rest = [] ↔ after = []) := by
    cases rest with
    | nil => exact ⟨[], by rw [List.append_nil]; exact .last huncut, by simp⟩
    | cons c rest =>
      obtain ⟨after, hafter⟩ := exists_stretches separators rest
      have hc := (separates_append_iff hstarts.behind_eq).mp (hstops c rfl)
      exact ⟨after, .cons huncut hc hafter, by simp [hafter.ne_nil]⟩
  cases hstarts with
  | text => exact ⟨[], after, hss.unique hafter, hiff⟩
  | @separator before c hc =>
    obtain ⟨ts, hts⟩ := exists_stretches separators before
    rw [List.append_assoc, List.singleton_append] at hss
    exact ⟨ts, after, hss.unique (hts.append hc hafter), hiff⟩

namespace Stretches

/-- **The stretches of a text** stand in it. -/
theorem mem_iff (h : Stretches separators cs ss) :
    s ∈ ss ↔ ∃ front rest, IsStretch separators cs front s rest := by
  constructor
  · intro hs
    obtain ⟨before, after, hss⟩ := List.append_of_mem hs
    obtain ⟨front, rest, hstretch, -⟩ := h.exists_isStretch hss
    exact ⟨front, rest, hstretch⟩
  · rintro ⟨front, rest, hstretch⟩
    obtain ⟨before, after, rfl, -⟩ := hstretch.exists_append h
    simp

/-- The last stretch ends the text. -/
theorem mem_dropLast_iff (h : Stretches separators cs ss) :
    s ∈ ss.dropLast ↔ ∃ front c rest, IsStretch separators cs front s (c :: rest) := by
  constructor
  · intro hs
    obtain ⟨before, after, hss⟩ := List.append_of_mem hs
    have hcut : ss = before ++ s :: (after ++ [ss.getLast h.ne_nil]) := by
      conv_lhs => rw [← List.dropLast_append_getLast h.ne_nil, hss]
      simp
    obtain ⟨front, rest, hstretch, hrest⟩ := h.exists_isStretch hcut
    cases rest with
    | nil => simp at hrest
    | cons c rest => exact ⟨front, c, rest, hstretch⟩
  · rintro ⟨front, c, rest, hstretch⟩
    obtain ⟨before, after, rfl, hafter⟩ := hstretch.exists_append h
    have hne : after ≠ [] := fun hnil => by simpa using hafter.mpr hnil
    rw [List.dropLast_append_of_ne_nil (by simp), List.dropLast_cons_of_ne_nil hne]
    simp

end Stretches

/-- Every place is in a stretch. -/
theorem exists_starts (separators cs : List Char) :
    ∃ front s, cs = front ++ s ∧ Starts separators front ∧ Uncut separators s := by
  obtain ⟨ss, hss⟩ := exists_stretches separators cs
  obtain ⟨front, rest, h, hrest⟩ :=
    hss.exists_isStretch (List.dropLast_append_getLast hss.ne_nil).symm
  rw [hrest.mpr rfl] at h
  exact ⟨front, _, by simpa using h.text, h.starts, h.uncut⟩

end

/-! ### Items -/

/-- **The stretches that are kept**: those that are not empty, and the last one also if it is empty
and `keepLast` holds. -/
def kept (keepLast : Bool) : List (List Char) → List (List Char)
  | [] => []
  | s :: ss => keep keepLast s ss

/-- An item is a stretch without the white space at its ends. -/
def item (s : List Char) : String := String.ofList (Text.trim s)

theorem kept_cons {ss : List (List Char)} (keepLast : Bool) (s : List Char) (hss : ss ≠ []) :
    kept keepLast (s :: ss) =
      if s.isEmpty then kept keepLast ss else s :: kept keepLast ss := by
  obtain ⟨t, ss, rfl⟩ := List.exists_cons_of_ne_nil hss
  rfl

theorem kept_singleton (keepLast : Bool) (s : List Char) :
    kept keepLast [s] = if keepLast || !s.isEmpty then [s] else [] := rfl

/-- **Only the last stretch may be kept empty.** -/
theorem kept_snoc (keepLast : Bool) (ss : List (List Char)) (s : List Char) :
    kept keepLast (ss ++ [s]) = ss.filter (fun t => !t.isEmpty) ++ kept keepLast [s] := by
  induction ss with
  | nil => rfl
  | cons t ss ih =>
    rw [List.cons_append, kept_cons _ _ (by simp), ih]
    cases t <;> simp

theorem kept_true {ss : List (List Char)} (hss : ss ≠ []) :
    kept true ss = ss.dropLast.filter (fun t => !t.isEmpty) ++ [ss.getLast hss] := by
  conv_lhs => rw [← List.dropLast_append_getLast hss]
  exact kept_snoc true ss.dropLast (ss.getLast hss)

theorem kept_false (ss : List (List Char)) : kept false ss = ss.filter fun s => !s.isEmpty := by
  cases ss using List.reverseRecOn with
  | nil => rfl
  | append_singleton ss s => rw [kept_snoc, kept_singleton, List.filter_append]; cases s <;> rfl

theorem mem_of_mem_kept {keepLast : Bool} {ss : List (List Char)} {s : List Char}
    (h : s ∈ kept keepLast ss) : s ∈ ss := by
  cases keepLast with
  | false =>
    rw [kept_false] at h
    exact List.mem_of_mem_filter h
  | true =>
    by_cases hss : ss = []
    · rwa [hss] at h ⊢
    · rw [kept_true hss, List.mem_append, List.mem_singleton] at h
      rcases h with h | rfl
      · exact List.mem_of_mem_dropLast (List.mem_of_mem_filter h)
      · exact List.getLast_mem hss

section

variable {separators front s cs rest : List Char} {ss : List (List Char)} {value : String}

/-- **The items of a list** are its stretches that are kept. -/
theorem split_eq (h : Stretches separators value.toList ss) (keepLast : Bool) :
    split separators keepLast value = (kept keepLast ss).map item := by
  rw [h.unique (stretches_cut (uncut_nil separators) value.toList)]
  rfl

/-- All items but the last one, where the last stretch is asked for. -/
theorem dropLast_split_true (h : Stretches separators value.toList ss) :
    (split separators true value).dropLast =
      (ss.dropLast.filter fun s => !s.isEmpty).map item := by
  rw [split_eq h, kept_true h.ne_nil, List.map_append, List.map_singleton, List.dropLast_concat]

theorem item?_eq (h : value.toList = front ++ (s ++ rest)) :
    item? value (utf8Len front) (utf8Len (front ++ s)) = some (item s) := by
  have hsize : utf8Len (front ++ s) - utf8Len front = utf8Len s := by
    rw [utf8Len_append, Nat.add_sub_cancel_left]
  have hle : utf8Len front ≤ utf8Len (front ++ s) := by
    rw [utf8Len_append]
    exact Nat.le_add_right _ _
  simp [item?, item, Source.slice?, h, Source.cut?_size]

theorem utf8Len_lt_append_iff : utf8Len front < utf8Len (front ++ s) ↔ s.isEmpty = false := by
  rw [utf8Len_append, Nat.lt_add_right_iff_pos, Nat.pos_iff_ne_zero, ne_eq, String.utf8Len_eq_zero,
    List.isEmpty_eq_false_iff]

theorem scan_cons (isSeparator : Char → Bool) (keepLast : Bool) (x : Context) (start here : ℕ)
    (c : Char) (cs : List Char) : scan isSeparator keepLast x start here (c :: cs) =
      if x.isTop && isSeparator c && !isMarkup c then
        let others := scan isSeparator keepLast x (here + c.utf8Size) (here + c.utf8Size) cs
        if start < here then (start, here) :: others else others
      else scan isSeparator keepLast (x.step c) start (here + c.utf8Size) cs := by
  rw [scan, Context.advance?_eq]
  cases x.isTop && isSeparator c && !isMarkup c <;> rfl

/-- **The scan finds the items.** -/
theorem mapM_scan (separators : List Char) (keepLast : Bool) (front s : List Char) (x : Context)
    (h : value.toList = front ++ (s ++ cs)) :
    (scan separators.contains keepLast x (utf8Len front) (utf8Len (front ++ s)) cs).mapM
        (fun ends => item? value ends.1 ends.2) =
      some ((kept keepLast ((s ++ (cut separators.contains x cs).1) ::
        (cut separators.contains x cs).2)).map item) := by
  induction cs generalizing front s x with
  | nil =>
    have hkeep : (keepLast || decide (utf8Len front < utf8Len (front ++ s))) =
        (keepLast || !s.isEmpty) := by
      simp only [utf8Len_lt_append_iff, Bool.decide_eq_false]
    rw [scan, hkeep, cut, List.append_nil, kept_singleton]
    split
    · rw [List.mapM_cons, item?_eq h]
      rfl
    · rfl
  | cons c cs ih =>
    have hnext : utf8Len (front ++ s) + c.utf8Size = utf8Len (front ++ (s ++ [c])) := by
      simp [utf8Len_append, Nat.add_assoc]
    rw [scan_cons, cut_cons, hnext]
    split
    · -- The stretch ends here, and the next one starts behind the separator.
      have hrest := ih (front ++ (s ++ [c])) [] x (by rw [h]; simp)
      rw [List.append_nil, List.nil_append] at hrest
      rw [List.append_nil, kept_cons _ _ (by simp)]
      simp only [utf8Len_lt_append_iff]
      cases hs : s.isEmpty with
      | true => exact hrest
      | false =>
        rw [if_pos rfl, List.mapM_cons, item?_eq h, hrest]
        rfl
    · have hrest := ih front (s ++ [c]) (x.step c) (by rw [h]; simp)
      rw [List.append_assoc, List.singleton_append] at hrest
      exact hrest

end

end Value.Split

/-- **Scanning and cutting** give the same items: the stretches that the scan notes all start and stop
between characters. -/
theorem Value.splitInPlace?_eq (separators : List Char) (keepLast : Bool) (value : String) :
    splitInPlace? separators keepLast value = some (split separators keepLast value) :=
  Split.mapM_scan separators keepLast [] [] {} rfl

end LosslessCss
