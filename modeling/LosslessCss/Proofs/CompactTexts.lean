import LosslessCss.Proofs.Addresses

/-!
# What compaction keeps of a text

Compaction as a relation between a text and its compact form (`Compacted`): in front of each unit
what separates it from the last one is replaced by a space or by nothing, and the separators at the
end are dropped.  What is said of the compact form here is told from the text by induction on that
relation.

If a text leaves no string and no comment open, its compact form has no comments, leaves nothing
open either, ends in no white space that is read, and has the same punctuation.  If all addresses
close in the text, they close in its compact form: the letters of `url(` are next to each other in
one exactly if they are in the other, and the parenthesis that closes an address is the same unit in
both.

## Main Definitions

* `Compacted` : a text and its compact form

## Main Statements

* `compacted_compact`
* `Compacted.punctuation_eq`, `Compacted.urlsClose`
-/

namespace LosslessCss

open Token (Kind isBlank)
open Value (isQuote)
open Value.Compact

/-- **A text and its compact form**, written behind a text that ends with `previous`. -/
inductive Compacted (tight : Tightness) : Option Char → List Char → List Char → Prop
  | last {previous : Option Char} {gap : List Char} (hgap : IsGap [] gap) :
      Compacted tight previous gap []
  | cons {previous : Option Char} {gap space unit cs ds : List Char}
      (hgap : IsGap (unit ++ cs) gap)
      (hspace : space = if gap != [] && tight.spaces previous unit.head? then [' '] else [])
      (hunit : IsUnit cs unit) (hunit' : IsUnit ds unit) (h : Compacted tight unit.getLast? cs ds) :
      Compacted tight previous (gap ++ (unit ++ cs)) (space ++ (unit ++ ds))

/-- **A text that is read as pieces** and what is written for them. -/
theorem Value.Compact.Reading.compacted {tight : Tightness} (htight : tight.Harmless)
    {text last : List Char} {ps : List Piece} (h : Reading text ps last) (previous : Option Char) :
    Compacted tight previous text (Value.Compact.write tight previous (ps.map Piece.noted)) := by
  induction h generalizing previous with
  | last hgap => exact .last hgap
  | @cons gap unit behind last ps hgap hunit h ih =>
    rw [List.map_cons, Piece.noted, Value.Compact.write, List.append_assoc]
    refine .cons hgap rfl hunit (hunit.change ?_ ?_) (ih _)
    · rintro rfl
      rw [h.eq_nil]
      rfl
    · rintro rfl hstar
      exact h.head?_write htight hstar

/-- **Compaction** gives the compact form. -/
theorem compacted_compact {tight : Tightness} (htight : tight.Harmless) (text : List Char) :
    Compacted tight none text (compact tight text) := by
  have hread : Reading text (pieces [] text).1 (pieces [] text).2 := reading_iff.mpr rfl
  have hunits := units_eq_map_pieces [] text
  rw [compact, show units false text = _ from hunits]
  exact hread.compacted htight none

/-- What is not white space is not blank. -/
theorem Text.isBlank_eq_false {c : Char} (h : isWhiteSpace c = false) : isBlank c = false := by
  contrapose! h
  simpa using isWhiteSpace_of_isBlank (by simpa using h)

namespace Watch

variable {w : Watch} {c : Char} {cs ds gap unit behind : List Char} {glued : Bool}

/-! ### Hidden texts -/

theorem hides_append_iff :
    w.hides (cs ++ ds) = true ↔ w.hides cs = true ∧ (w.after cs).hides ds = true := by
  induction cs generalizing w with
  | nil => simp [hides]
  | cons c cs ih => rw [List.cons_append, hides_cons_iff, hides_cons_iff, ih, after_cons, and_assoc]

/-- An open comment is hidden to its end. -/
theorem hides_unclosed {inner : List Char} (hinner : ¬['*', '/'] <:+: inner) :
    comment.hides inner = true ∧ (comment.after inner).isOutside = false := by
  have hclosed : comment.hides (inner ++ ['*', '/']) = true := by
    refine hides_comment ?_
    rw [Token.commentTail_append_of_not_infix hinner, List.length_append]
    rfl
  obtain ⟨hhides, hclose⟩ := hides_append_iff.mp hclosed
  exact ⟨hhides, (hides_cons_iff.mp hclose).1⟩

/-- Hidden texts have no addresses. -/
theorem urlsClose_of_hides (h : w.hides cs = true) (hne : cs ≠ []) :
    w.urlsClose glued (cs ++ ds) = (w.after cs).urlsClose false ds := by
  induction cs generalizing w glued with
  | nil => contradiction
  | cons c cs ih =>
    obtain ⟨houtside, hcs⟩ := hides_cons_iff.mp h
    have hglues : w.glues c = false := by
      cases w <;> first | rfl | cases houtside
    rw [List.cons_append, urlsClose, isReading_of_not_isOutside houtside, hglues, Bool.false_and,
      Bool.not_false, Bool.true_or, Bool.true_and]
    by_cases hnil : cs = []
    · subst hnil
      rfl
    · exact ih hcs hnil

/-- No address is closed by what is hidden, and what else is in it matters neither. -/
theorem closesAddress_of_hides (h : w.hides cs = true) (hcs : w.closesAddress (cs ++ ds) = true) :
    (w.after cs).closesAddress ds = true ∧
      ∀ es, (w.after cs).closesAddress es = true → w.closesAddress (cs ++ es) = true := by
  induction cs generalizing w with
  | nil => exact ⟨hcs, fun _ => id⟩
  | cons c cs ih =>
    obtain ⟨houtside, hrest⟩ := hides_cons_iff.mp h
    rw [List.cons_append, closesAddress_cons] at hcs
    split at hcs
    · rw [houtside] at hcs
      cases hcs
    · next hclose =>
      obtain ⟨hmark, hcs⟩ := Bool.and_eq_true_iff.mp hcs
      obtain ⟨hds, hall⟩ := ih hrest hcs
      refine ⟨hds, fun es hes => ?_⟩
      rw [List.cons_append, closesAddress_cons, if_neg hclose, hmark, hall es hes]
      rfl

/-! ### Gaps -/

/-- White space starts nothing. -/
theorem step_of_isWhiteSpace (hc : Text.isWhiteSpace c = true) : plain.step c = plain := by
  have hwhite : marks.any Text.isWhiteSpace = false := rfl
  obtain ⟨hslash, hquote, hmark⟩ := not_mem_marks_iff.mp (not_mem_marks hwhite hc)
  simp [step, starting, hslash, hquote, hmark]

/-- The inside of a comment with the mark that closes it. -/
theorem closed_comment {inner : List Char} (hinner : ¬['*', '/'] <:+: inner) :
    comment.hides (inner ++ ['*', '/']) = true ∧ comment.after (inner ++ ['*', '/']) = plain := by
  have hreach : Token.commentTail (inner ++ ['*', '/']) = some (inner ++ ['*', '/']).length := by
    rw [Token.commentTail_append_of_not_infix hinner, List.length_append]
    rfl
  exact ⟨hides_comment hreach, (after_of_commentTail hreach).1⟩

/-- **Behind what separates units** text is read as at its start, if something follows. -/
theorem after_of_isGap (h : IsGap behind gap) (hne : behind ≠ []) : plain.after gap = plain := by
  induction h with
  | nil => rfl
  | white hwhite _ ih => rwa [after_cons, step_of_isWhiteSpace hwhite]
  | @comment inner cs hinner _ ih =>
    change comment.after (inner ++ (['*', '/'] ++ cs)) = plain
    rw [← List.append_assoc, after_append, (closed_comment hinner).2]
    exact ih
  | unclosed _ hend => exact absurd hend hne

/-- What separates units has no punctuation. -/
theorem punctuation_of_isGap (h : IsGap behind gap) : plain.punctuation gap = [] := by
  induction h with
  | nil => rfl
  | white hwhite _ ih =>
    rw [punctuation_cons, step_of_isWhiteSpace hwhite, ih,
      mark?_eq_none (p := fun d => !Text.isWhiteSpace d) (by simpa using hwhite) rfl]
    rfl
  | @comment inner cs hinner _ ih =>
    obtain ⟨hhides, hafter⟩ := closed_comment hinner
    change comment.punctuation (inner ++ (['*', '/'] ++ cs)) = []
    rw [← List.append_assoc, punctuation_append, punctuation_of_hides hhides, hafter, ih]
    rfl
  | @unclosed inner hinner =>
    change comment.punctuation inner = []
    exact punctuation_of_hides (hides_unclosed hinner).1

/-- Behind what separates units all addresses close, and nothing is glued to what is in front. -/
theorem urlsClose_of_isGap (h : IsGap behind gap) (hne : behind ≠ [])
    (hurls : plain.urlsClose glued (gap ++ behind) = true) :
    plain.urlsClose (glued && gap.isEmpty) behind = true := by
  suffices hgap : gap ≠ [] → plain.urlsClose false behind = true by
    cases gap with
    | nil => simpa using hurls
    | cons c gap => simpa using hgap (by simp)
  intro hgap
  induction h generalizing glued with
  | nil => contradiction
  | @white c cs hwhite _ ih =>
    have hcs := (urlsClose_cons_iff.mp hurls).2
    rw [step_of_isWhiteSpace hwhite, glues_eq_false rfl (.inl hwhite)] at hcs
    by_cases hnil : cs = []
    · subst hnil
      exact hcs
    · exact ih hcs hnil
  | @comment inner cs hinner _ ih =>
    obtain ⟨hhides, hafter⟩ := closed_comment hinner
    have hcut : inner ++ '*' :: '/' :: cs ++ behind = inner ++ ['*', '/'] ++ (cs ++ behind) := by
      simp
    have hopen : comment.urlsClose _ (inner ++ '*' :: '/' :: cs ++ behind) = true :=
      (urlsClose_cons_iff.mp (urlsClose_cons_iff.mp hurls).2).2
    rw [hcut, urlsClose_of_hides hhides (by simp), hafter] at hopen
    by_cases hnil : cs = []
    · subst hnil
      exact hopen
    · exact ih hopen hnil
  | unclosed _ hend => exact absurd hend hne

/-- Behind what separates units an address is closed that is closed in front of it. -/
theorem closesAddress_of_isGap (h : IsGap behind gap)
    (hcloses : plain.closesAddress (gap ++ behind) = true) : plain.closesAddress behind = true := by
  induction h with
  | nil => exact hcloses
  | @white c cs hwhite _ ih =>
    rw [List.cons_append, closesAddress_cons, if_neg ?_, step_of_isWhiteSpace hwhite] at hcloses
    · exact ih (Bool.and_eq_true_iff.mp hcloses).2
    · rintro ⟨rfl, -⟩
      cases hwhite
  | @comment inner cs hinner _ ih =>
    obtain ⟨hhides, hafter⟩ := closed_comment hinner
    have hcut : inner ++ '*' :: '/' :: cs ++ behind = inner ++ ['*', '/'] ++ (cs ++ behind) := by
      simp
    have hopen : comment.closesAddress (inner ++ '*' :: '/' :: cs ++ behind) = true := hcloses
    rw [hcut] at hopen
    have hrest := (closesAddress_of_hides hhides hopen).1
    rw [hafter] at hrest
    exact ih hrest
  | @unclosed inner hinner hend =>
    subst hend
    have hopen : comment.closesAddress (inner ++ []) = true := hcloses
    cases (closesAddress_of_hides (hides_unclosed hinner).1 hopen).1

/-- What separates units from a quote is blank if a quoted address starts behind it. -/
theorem dropWhile_of_isGap (h : IsGap behind gap)
    (hquote : ((gap ++ behind).dropWhile isBlank).head?.any isQuote = true) :
    (behind.dropWhile isBlank).head?.any isQuote = true := by
  induction h with
  | nil => exact hquote
  | @white c cs hwhite _ ih =>
    rw [List.cons_append, List.dropWhile_cons] at hquote
    split at hquote
    · exact ih hquote
    · have hmark : marks.any Text.isWhiteSpace = false := rfl
      rw [List.head?_cons, Option.any_some,
        (not_mem_marks_iff.mp (not_mem_marks hmark hwhite)).2.1] at hquote
      cases hquote
  | comment => cases hquote
  | unclosed => cases hquote

/-! ### Units -/

/-- **A unit** is passed, unless the text ends in it. -/
theorem passes_of_isUnit (h : IsUnit behind unit)
    (hout : behind = [] → (plain.after unit).isOutside = true) : Passes 0 unit behind := by
  cases h with
  | escape c => exact passes_escape c behind
  | backslash hend => exact passes_backslash hend
  | quoted hquote hinner => exact passes_quoted hquote hinner behind
  | unclosed hquote hinner hslash hend =>
    have hopen := hout hend
    rw [(after_cons_of_quotes hquote hinner _).1] at hopen
    rcases hslash with rfl | rfl <;> cases hopen
  | single hslash hquote _ hcomment => exact passes_single hslash hquote hcomment

/-- **What stands in front of a unit and behind it**, where nothing is left open. -/
theorem unit_spec (hgap : IsGap (unit ++ cs) gap) (hunit : IsUnit cs unit)
    (hout : (plain.after (gap ++ (unit ++ cs))).isOutside = true) :
    plain.after gap = plain ∧ Passes 0 unit cs ∧ (plain.after cs).isOutside = true := by
  have hne : unit ++ cs ≠ [] := by simp [hunit.ne_nil]
  have hplain := after_of_isGap hgap hne
  rw [after_append, hplain, after_append] at hout
  have hpasses := passes_of_isUnit hunit fun hnil => by simpa [hnil] using hout
  refine ⟨hplain, hpasses, ?_⟩
  by_cases hnil : cs = []
  · subst hnil
    rfl
  · rwa [hpasses.ready.eq_plain.1 hnil] at hout

/-- A string is hidden behind its first quote. -/
theorem quoted_spec {quote : Char} (hquote : isQuote quote = true) {inner : List Char}
    (hinner : Quotes quote inner) : ∃ w, plain.step quote = w ∧ w.isOutside = false ∧
      w.hides (inner ++ [quote]) = true ∧ w.after (inner ++ [quote]) = plain := by
  refine ⟨quoted ⟨quote, hquote⟩, ?_, rfl, hides_quotes ⟨quote, hquote⟩ hinner, ?_⟩
  · simp [step, starting, ne_backslash_of_isQuote hquote, hquote]
  · rw [after_append, (after_of_quotes ⟨quote, hquote⟩ hinner).1]
    exact (if_neg (ne_backslash_of_isQuote hquote)).trans (if_pos rfl)

/-- **Whether all addresses close from a unit on** is told by what starts with the unit, and by what
stands behind it. -/
theorem exists_glued (h : IsUnit behind unit) (hout : (plain.after unit).isOutside = true) :
    ∃ glued', ∀ ds glued, (plain.after unit).Ready ds →
      (plain.urlsClose glued (unit ++ ds) = true ↔
        (glued = false → ∀ es, behindUrl? (unit ++ ds) = some es → closesUrl es = true) ∧
          plain.urlsClose glued' ds = true) := by
  cases h with
  | escape c =>
    refine ⟨true, fun ds glued _ => ?_⟩
    have hback : escaped.urlsClose (plain.glues '\\') (c :: ds) = plain.urlsClose true ds := by
      simp [urlsClose, isReading, isOutside, isUnescaped, step, glues]
    refine urlsClose_cons_iff.trans (and_congr (by simp [isReading, isOutside, isUnescaped]) ?_)
    exact iff_of_eq (congrArg (· = true) hback)
  | backslash =>
    refine ⟨true, fun ds glued hready => ?_⟩
    obtain rfl := hready.escaped rfl
    refine urlsClose_cons_iff.trans (and_congr (by simp [isReading, isOutside, isUnescaped]) ?_)
    simp
  | @quoted quote inner hquote hinner =>
    obtain ⟨w, hw, -, hhides, hafter⟩ := quoted_spec hquote hinner
    refine ⟨false, fun ds glued _ => ?_⟩
    rw [List.cons_append, urlsClose_cons_iff, hw, urlsClose_of_hides hhides (by simp), hafter]
    simp [isReading, isOutside, isUnescaped]
  | unclosed hquote hinner hslash =>
    rw [(after_cons_of_quotes hquote hinner _).1] at hout
    rcases hslash with rfl | rfl <;> cases hout
  | @single c =>
    refine ⟨plain.glues c, fun ds glued hready => ?_⟩
    have hnext : (plain.step c).urlsClose (plain.glues c) ds = plain.urlsClose (plain.glues c) ds :=
      hready.urlsClose_eq
    rw [List.singleton_append, urlsClose_cons_iff, hnext]
    simp [isReading, isOutside, isUnescaped]

/-- **An address goes on behind a unit** that is not the parenthesis which closes it. -/
theorem closesAddress_of_isUnit (h : IsUnit behind unit) (hne : unit ≠ [')'])
    (hready : (plain.after unit).Ready behind)
    (hcloses : plain.closesAddress (unit ++ behind) = true) :
    plain.closesAddress behind = true ∧ ∀ ds, (plain.after unit).Ready ds →
      plain.closesAddress ds = true → plain.closesAddress (unit ++ ds) = true := by
  have hescape (c : Char) (ds : List Char) :
      plain.closesAddress ('\\' :: c :: ds) = plain.closesAddress ds := by
    simp [closesAddress, isReading, isOutside, isUnescaped, step, starting, mark?,
      Token.punctuation?]
  cases h with
  | escape c =>
    rw [List.cons_append, List.singleton_append, hescape] at hcloses
    exact ⟨hcloses, fun ds _ hds => by rwa [List.cons_append, List.singleton_append, hescape]⟩
  | backslash hend =>
    subst hend
    simp [closesAddress] at hcloses
  | @quoted quote inner hquote hinner =>
    obtain ⟨w, hw, -, hhides, hafter⟩ := quoted_spec hquote hinner
    have hparen : ¬(quote = ')' ∧ plain.isUnescaped = true) := by
      rintro ⟨rfl, -⟩
      cases hquote
    rw [List.cons_append, closesAddress_cons, if_neg hparen, hw] at hcloses
    obtain ⟨hmark, hcloses⟩ := Bool.and_eq_true_iff.mp hcloses
    obtain ⟨hrest, hall⟩ := closesAddress_of_hides hhides hcloses
    rw [hafter] at hrest hall
    refine ⟨hrest, fun ds _ hds => ?_⟩
    rw [List.cons_append, closesAddress_cons, if_neg hparen, hw, hmark, hall ds hds]
    rfl
  | unclosed hquote hinner hslash hend =>
    have hopen := hready.outside
    rw [(after_cons_of_quotes hquote hinner _).1] at hopen
    rcases hslash with rfl | rfl <;> cases hopen
  | @single c =>
    have hparen : ¬(c = ')' ∧ plain.isUnescaped = true) := by
      rintro ⟨rfl, -⟩
      exact hne rfl
    have hnext {ds : List Char} (hds : (plain.step c).Ready ds) :
        (plain.step c).closesAddress ds = plain.closesAddress ds := hds.closesAddress_eq
    rw [List.singleton_append, closesAddress_cons, if_neg hparen, hnext hready] at hcloses
    obtain ⟨hmark, hcloses⟩ := Bool.and_eq_true_iff.mp hcloses
    refine ⟨hcloses, fun ds hds hcloses' => ?_⟩
    rw [List.singleton_append, closesAddress_cons, if_neg hparen, hnext hds, hmark, hcloses']
    rfl

end Watch

/-! ### The compact form -/

open Watch (plain closesUrl behindUrl? Passes unit_spec)

namespace Compacted

variable {tight : Tightness} {previous : Option Char} {cs ds : List Char}

theorem eq_nil (h : Compacted tight previous [] ds) : ds = [] := by
  generalize hcs : ([] : List Char) = cs at h
  cases h with
  | last => exact hcs
  | cons _ _ hunit => simp [hunit.ne_nil] at hcs

/-- **The compact form has no comments** and leaves nothing open. -/
theorem passes (h : Compacted tight previous cs ds) (hout : (plain.after cs).isOutside = true) :
    Passes 0 ds [] := by
  induction h with
  | last => exact Watch.passes_nil []
  | @cons previous gap space unit cs ds hgap hspace hunit hunit' _ ih =>
    obtain ⟨-, hpasses, hout'⟩ := unit_spec hgap hunit hout
    have hblank : Passes 0 space (unit ++ ds ++ []) := by
      rw [hspace]
      split
      · exact ⟨rfl, Watch.ready_plain _⟩
      · exact Watch.passes_nil _
    have hwhole : Passes 0 unit (ds ++ []) := by
      rw [List.append_nil]
      exact Watch.passes_of_isUnit hunit' fun _ => hpasses.ready.outside
    exact hblank.append (hwhole.append (ih hout'))

/-- **The compact form has the same punctuation.** -/
theorem punctuation_eq (h : Compacted tight previous cs ds)
    (hout : (plain.after cs).isOutside = true) : plain.punctuation ds = plain.punctuation cs := by
  induction h with
  | last hgap => exact (Watch.punctuation_of_isGap hgap).symm
  | @cons previous gap space unit cs ds hgap hspace hunit hunit' _ ih =>
    obtain ⟨hplain, hpasses, hout'⟩ := unit_spec hgap hunit hout
    have hpasses' := Watch.passes_of_isUnit hunit' fun _ => hpasses.ready.outside
    have hblank : plain.punctuation space = [] ∧ plain.after space = plain := by
      rw [hspace]
      split <;> exact ⟨rfl, rfl⟩
    rw [Watch.punctuation_append, hblank.1, hblank.2, Watch.punctuation_append,
      hpasses'.ready.punctuation_eq, ih hout', Watch.punctuation_append,
      Watch.punctuation_of_isGap hgap, hplain, Watch.punctuation_append,
      hpasses.ready.punctuation_eq]

/-- A compact form that ends with something that is read ends with something that the text ends
with. -/
theorem isReading (h : Compacted tight previous cs ds)
    (hreading : (plain.after cs).isReading = true) : (plain.after ds).isReading = true := by
  induction h with
  | last => rfl
  | @cons previous gap space unit cs ds hgap hspace hunit hunit' h ih =>
    have hout := (Bool.and_eq_true_iff.mp hreading).1
    obtain ⟨hplain, hpasses, hout'⟩ := unit_spec hgap hunit hout
    have hpasses' := Watch.passes_of_isUnit hunit' fun _ => hpasses.ready.outside
    have hblank : plain.after space = plain := by
      rw [hspace]
      split <;> rfl
    rw [Watch.after_append, hplain, Watch.after_append] at hreading
    rw [Watch.after_append, hblank, Watch.after_append]
    by_cases hcs : cs = []
    · subst hcs
      rw [h.eq_nil]
      exact hreading
    · rw [hpasses.ready.eq_plain.1 hcs] at hreading
      by_cases hds : ds = []
      · -- Only separators follow the last unit, but something does.
        subst hds
        obtain ⟨c, cs, rfl⟩ := List.exists_cons_of_ne_nil hcs
        exact hpasses.ready.isReading
      · rw [hpasses'.ready.eq_plain.1 hds]
        exact ih hreading

/-- **The compact form does not start with white space.** -/
theorem head (h : Compacted tight none cs ds) : ∀ c ∈ ds.head?, Text.isWhiteSpace c = false := by
  cases h with
  | last => simp
  | cons hgap hspace hunit hunit' =>
    obtain ⟨c, text, rfl, hsep, -⟩ := hunit.exists_scan
    rw [hspace, if_neg (by simp [Tightness.spaces])]
    simpa using (separatorTail?_eq_none_iff.mp hsep).1

/-- **The compact form does not end with white space** that is read. -/
theorem last_spec (h : Compacted tight previous cs ds) (hout : (plain.after cs).isOutside = true)
    {front : List Char} {c : Char} (hcut : ds = front ++ [c])
    (hreading : (plain.after front).isReading = true) : Text.isWhiteSpace c = false := by
  induction h generalizing front with
  | last => simp at hcut
  | @cons previous gap space unit cs ds hgap hspace hunit hunit' h ih =>
    obtain ⟨-, hpasses, hout'⟩ := unit_spec hgap hunit hout
    have hpasses' := Watch.passes_of_isUnit hunit' fun _ => hpasses.ready.outside
    have hblank : plain.after space = plain := by
      rw [hspace]
      split <;> rfl
    rcases List.eq_nil_or_concat' ds with rfl | ⟨ds, d, rfl⟩
    · rw [List.append_nil] at hcut
      cases hunit' with
      | escape d =>
        obtain ⟨rfl, -⟩ : space ++ ['\\'] = front ∧ [d] = [c] :=
          List.append_inj' (by simpa using hcut) rfl
        rw [Watch.after_append, hblank] at hreading
        cases hreading
      | backslash =>
        obtain ⟨-, hc⟩ := List.append_inj' hcut rfl
        obtain rfl : '\\' = c := by simpa using hc
        rfl
      | @quoted quote inner hquote =>
        rw [← List.cons_append, ← List.append_assoc] at hcut
        obtain ⟨-, hc⟩ := List.append_inj' hcut rfl
        obtain rfl : quote = c := by simpa using hc
        simp only [isQuote, Bool.or_eq_true, beq_iff_eq] at hquote
        rcases hquote with rfl | rfl <;> rfl
      | unclosed hquote hinner hslash =>
        have hopen := hpasses.ready.outside
        rw [(Watch.after_cons_of_quotes hquote hinner _).1] at hopen
        rcases hslash with rfl | rfl <;> cases hopen
      | @single d _ _ hwhite =>
        obtain ⟨-, hc⟩ := List.append_inj' hcut rfl
        obtain rfl : d = c := by simpa using hc
        exact hwhite
    · obtain ⟨rfl, hd⟩ : space ++ (unit ++ ds) = front ∧ [d] = [c] :=
        List.append_inj' (by simpa using hcut) rfl
      obtain rfl : d = c := by simpa using hd
      refine ih hout' rfl ?_
      rw [Watch.after_append, hblank, Watch.after_append] at hreading
      by_cases hnil : ds = []
      · subst hnil
        rfl
      · rwa [hpasses'.ready.of_append.eq_plain.1 hnil] at hreading

/-- **An address that is closed is closed in the compact form.** -/
theorem closesAddress (h : Compacted tight previous cs ds)
    (hout : (plain.after cs).isOutside = true) (hcloses : plain.closesAddress cs = true) :
    plain.closesAddress ds = true := by
  induction h with
  | last hgap =>
    rename_i gap
    have hnil : plain.closesAddress (gap ++ []) = true := by rwa [List.append_nil]
    exact Watch.closesAddress_of_isGap hgap hnil
  | @cons previous gap space unit cs ds hgap hspace hunit hunit' h ih =>
    obtain ⟨-, hpasses, hout'⟩ := unit_spec hgap hunit hout
    have hpasses' := Watch.passes_of_isUnit hunit' fun _ => hpasses.ready.outside
    have hstart := Watch.closesAddress_of_isGap hgap hcloses
    have hblank (es : List Char) : plain.closesAddress (space ++ es) = plain.closesAddress es := by
      rw [hspace]
      split <;> rfl
    rw [hblank]
    by_cases hparen : unit = [')']
    · subst hparen
      rfl
    · obtain ⟨hrest, hall⟩ := Watch.closesAddress_of_isUnit hunit hparen hpasses.ready hstart
      exact hall ds hpasses'.ready (ih hout' hrest)

/-- **What stands behind `url(`** closes in the compact form. -/
theorem closesUrl (h : Compacted tight previous cs ds) (hout : (plain.after cs).isOutside = true)
    (hcloses : closesUrl cs = true) : Watch.closesUrl ds = true := by
  rw [Watch.closesUrl, Bool.or_eq_true] at hcloses ⊢
  refine hcloses.imp (fun hquote => ?_) fun hclosed => h.closesAddress hout hclosed
  cases h with
  | last hgap =>
    rw [← List.append_nil cs] at hquote
    cases Watch.dropWhile_of_isGap hgap hquote
  | @cons _ gap space unit cs ds hgap hspace hunit =>
    have hstart := Watch.dropWhile_of_isGap hgap hquote
    obtain ⟨c, text, rfl, hsep, -⟩ := hunit.exists_scan
    have hblank := Text.isBlank_eq_false (separatorTail?_eq_none_iff.mp hsep).1
    have hdrop (es : List Char) : (c :: es).dropWhile isBlank = c :: es :=
      List.dropWhile_cons_of_neg (by simp [hblank])
    rw [List.cons_append, hdrop] at hstart
    rw [hspace, List.cons_append]
    split
    · change ((c :: (text ++ ds)).dropWhile isBlank).head?.any isQuote = true
      rwa [hdrop]
    · rwa [List.nil_append, hdrop]

/-- **A letter that follows directly** in the compact form follows directly in the text. -/
theorem of_adjacent {a c : Char} (htight : tight.Harmless) (hparen : '(' ∉ tight.before)
    (ha : a.toLower ∈ ['u', 'r', 'l']) (hc : c.toLower ∈ ['r', 'l'] ∨ c = '(')
    (h : Compacted tight (some a) cs (c :: ds)) (hout : (plain.after cs).isOutside = true) :
    ∃ more, cs = c :: more ∧ Compacted tight (some c) more ds ∧
      (plain.after more).isOutside = true := by
  have hne {d : Char} (hd : d.toLower ∉ ['r', 'l'] ∧ d ≠ '(') : c ≠ d := by
    rintro rfl
    exact hc.elim hd.1 hd.2
  generalize hds : c :: ds = es at h
  cases h with
  | last => cases hds
  | @cons _ gap space unit cs ds hgap hspace hunit hunit' h =>
    obtain ⟨-, -, hout'⟩ := unit_spec hgap hunit hout
    cases hleft : gap != [] && tight.spaces (some a) unit.head? with
    | true =>
      rw [hspace, hleft] at hds
      exact absurd (List.cons.inj hds).1 (hne (by decide))
    | false =>
      rw [hspace, hleft] at hds
      have hquoted {quote : Char} (hquote : isQuote quote = true) : c ≠ quote := by
        simp only [isQuote, Bool.or_eq_true, beq_iff_eq] at hquote
        rcases hquote with rfl | rfl <;> exact hne (by decide)
      cases hunit with
      | escape | backslash => exact absurd (List.cons.inj hds).1 (hne (by decide))
      | quoted hquote | unclosed hquote => exact absurd (List.cons.inj hds).1 (hquoted hquote)
      | @single d =>
        obtain ⟨rfl, rfl⟩ := List.cons.inj hds
        obtain rfl : gap = [] := by
          by_contra hgap
          have htouches : tight.spaces (some a) (some c) = false := by simpa [hgap] using hleft
          have hbehind : a ∉ tight.behind := fun hmem =>
            (htight a (List.mem_append_right _ hmem)).2.2 ha
          have hbefore : c ∉ tight.before := fun hmem => hc.elim
            (fun hletter => (htight c (List.mem_append_left _ hmem)).2.2 (.tail _ hletter))
            fun hc => hparen (hc ▸ hmem)
          simp [Tightness.spaces, hbehind, hbefore] at htouches
        exact ⟨cs, rfl, h, hout'⟩

/-- **What stands behind `url(`** in the compact form is the compact form of what stands behind it
in the text. -/
theorem exists_behindUrl (htight : tight.Harmless) (hparen : '(' ∉ tight.before) {u : Char}
    {es : List Char} (h : Compacted tight (some u) cs ds)
    (hout : (plain.after cs).isOutside = true) (hurl : behindUrl? (u :: ds) = some es) :
    ∃ more, behindUrl? (u :: cs) = some more ∧ Compacted tight (some '(') more es ∧
      (plain.after more).isOutside = true := by
  obtain ⟨u', r, l, hcut, hname⟩ := Watch.behindUrl?_eq_some_iff.mp hurl
  obtain ⟨rfl, rfl⟩ := List.cons.inj hcut
  obtain ⟨hu, hr, hl⟩ : u.toLower = 'u' ∧ r.toLower = 'r' ∧ l.toLower = 'l' := by
    simpa [Text.eqIgnoringCase] using hname
  obtain ⟨cs, rfl, h, hout⟩ := h.of_adjacent htight hparen (by simp [hu]) (by simp [hr]) hout
  obtain ⟨cs, rfl, h, hout⟩ := h.of_adjacent htight hparen (by simp [hr]) (by simp [hl]) hout
  obtain ⟨cs, rfl, h, hout⟩ := h.of_adjacent htight hparen (by simp [hl]) (by simp) hout
  exact ⟨cs, Watch.behindUrl?_eq_some_iff.mpr ⟨u, r, l, rfl, hname⟩, h, hout⟩

/-- **If all addresses close in a text, they do in its compact form.** -/
theorem urlsClose (htight : tight.Harmless) (hparen : '(' ∉ tight.before)
    (h : Compacted tight previous cs ds) (hout : (plain.after cs).isOutside = true)
    {glued glued' : Bool} (hurls : plain.urlsClose glued cs = true)
    (hglued : glued' = false → glued = false) : plain.urlsClose glued' ds = true := by
  induction h generalizing glued glued' with
  | last => rfl
  | @cons previous gap space unit cs ds hgap hspace hunit hunit' h ih =>
    obtain ⟨-, hpasses, hout'⟩ := unit_spec hgap hunit hout
    have hpasses' := Watch.passes_of_isUnit hunit' fun _ => hpasses.ready.outside
    have hstart := Watch.urlsClose_of_isGap hgap (by simp [hunit.ne_nil]) hurls
    obtain ⟨behind, hbehind⟩ := Watch.exists_glued hunit hpasses.ready.outside
    obtain ⟨hhead, hrest⟩ := (hbehind cs _ hpasses.ready).mp hstart
    -- The unit and what stands behind it, without the space in front.
    have hcore {glued' : Bool} (hglued' : glued' = false → (glued && gap.isEmpty) = false) :
        plain.urlsClose glued' (unit ++ ds) = true := by
      refine (hbehind ds _ hpasses'.ready).mpr ⟨fun hfree es hes => ?_, ih hout' hrest id⟩
      obtain ⟨c, rfl⟩ : ∃ c, unit = [c] := by
        have hlower {c : Char} {text : List Char} (hcut : unit = c :: text) : c.toLower = 'u' := by
          rw [hcut] at hes
          exact Watch.toLower_of_behindUrl? hes
        cases hunit with
        | escape | backslash => exact absurd (hlower rfl) (by decide)
        | quoted hquote | unclosed hquote =>
          have hquote' := hlower rfl
          simp only [isQuote, Bool.or_eq_true, beq_iff_eq] at hquote
          rcases hquote with rfl | rfl <;> exact absurd hquote' (by decide)
        | single => exact ⟨_, rfl⟩
      obtain ⟨more, hmore, hcompacted, hout⟩ := h.exists_behindUrl htight hparen hout' hes
      exact hcompacted.closesUrl hout (hhead (hglued' hfree) more hmore)
    cases hleft : gap != [] && tight.spaces previous unit.head? with
    | false =>
      rw [hspace, hleft]
      exact hcore fun hfree => by simp [hglued hfree]
    | true =>
      have hgap : gap.isEmpty = false := by
        have := (Bool.and_eq_true_iff.mp hleft).1
        simpa using this
      rw [hspace, hleft]
      refine Watch.urlsClose_cons_iff.mpr ⟨fun _ _ es hes => ?_, hcore fun _ => by simp [hgap]⟩
      exact absurd (Watch.toLower_of_behindUrl? hes) (by decide)

end Compacted

end LosslessCss
