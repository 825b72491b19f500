import LosslessCss.Sheet.Walk
import LosslessCss.Proofs.InPlace

/-!
# Walks that only look

A walk keeps a stack of frames, and before each turn it looks again whether the next child still
stands in its place, because the visitor may have edited the sheet.  A visitor that never changes the
sheet gets none of this to see.  What is left to be visited is then known at each turn: the children
that wait in the frames, innermost frame first, each with what is below it (`Sheet.pending`).  A turn
takes the first node off this list or drops a frame that is empty.  So a walk shows the nodes below
the root in document order, as far as its walker selects them, until the visitor has enough
(`Sheet.walk_of_readOnly`).

The statistics of a sheet are those of four walks that count, so they count each attached node of a
kind once.

## Main Definitions

* `Visitor.ReadOnly`, `Visitor.Visits` : a visitor that only looks, and what it sees of a list
* `Visitor.noting` : the visitor with a list of the nodes that it has seen
* `Sheet.below`, `Sheet.selected` : document order, and the nodes of it that a walker selects
* `Sheet.collect` : counting by walking

## Main Statements

* `Sheet.walkFrames_of_visits` : what the frames of a walk stand for
* `Sheet.walk_of_readOnly` : what a walk shows, and what the statistics count
-/

namespace LosslessCss

open Relation (ReflTransGen TransGen)

/-! ### Visitors -/

namespace Visitor

variable {σ : Type}

/-- **A visitor that does not change the sheet.** -/
def ReadOnly (visitor : Visitor σ) : Prop := ∀ h v, (visitor h v).2.sheet = v.sheet

/-- **What a visitor sees of a list of nodes.**  It is shown one after the other and has `memory` in
mind at first; with the first node on which it stops, if there is one, the list is cut.  What was
shown, the last verdict, and what it has in mind afterwards are the outcome. -/
inductive Visits (visitor : Visitor σ) (s : Sheet) :
    σ → List Handle → List Handle → Verdict → σ → Prop
  | done {memory : σ} : Visits visitor s memory [] [] .proceed memory
  | stop {memory after : σ} {h : Handle} {hs : List Handle}
      (hstop : visitor h ⟨s, memory⟩ = (.stop, ⟨s, after⟩)) :
      Visits visitor s memory (h :: hs) [h] .stop after
  | proceed {memory between after : σ} {h : Handle} {hs shown : List Handle} {verdict : Verdict}
      (hproceed : visitor h ⟨s, memory⟩ = (.proceed, ⟨s, between⟩))
      (hrest : Visits visitor s between hs shown verdict after) :
      Visits visitor s memory (h :: hs) (h :: shown) verdict after

/-- The visitor with a list of the nodes that it has seen. -/
def noting (visitor : Visitor σ) : Visitor (σ × List Handle) := fun h v =>
  let (verdict, v') := visitor h ⟨v.sheet, v.memory.1⟩
  (verdict, ⟨v'.sheet, (v'.memory, v.memory.2 ++ [h])⟩)

/-- A visitor that counts the nodes that it sees. -/
def counting : Visitor Nat := fun _ v => (.proceed, { v with memory := v.memory + 1 })

variable {visitor : Visitor σ} {s : Sheet} {memory after : σ} {hs shown : List Handle}
  {verdict : Verdict}

/-- A visitor that only looks answers every list in some way. -/
theorem ReadOnly.exists_visits (hvisitor : visitor.ReadOnly) (s : Sheet) (memory : σ)
    (hs : List Handle) : ∃ shown verdict after, visitor.Visits s memory hs shown verdict after := by
  induction hs generalizing memory with
  | nil => exact ⟨[], .proceed, memory, .done⟩
  | cons h hs ih =>
    have hsheet := hvisitor h ⟨s, memory⟩
    rcases hanswer : visitor h ⟨s, memory⟩ with ⟨verdict, ⟨s', between⟩⟩
    rw [hanswer] at hsheet
    obtain rfl : s' = s := hsheet
    cases verdict with
    | stop => exact ⟨[h], .stop, between, .stop hanswer⟩
    | proceed =>
      obtain ⟨shown, verdict, after, hrest⟩ := ih between
      exact ⟨h :: shown, verdict, after, .proceed hanswer hrest⟩

/-- **The list is cut right behind the node on which the visitor stops**, or not at all. -/
theorem Visits.cut (h : visitor.Visits s memory hs shown verdict after) :
    (verdict = .proceed ∧ shown = hs) ∨
      (verdict = .stop ∧ ∃ front last back m, hs = front ++ last :: back ∧
        shown = front ++ [last] ∧ visitor last ⟨s, m⟩ = (.stop, ⟨s, after⟩)) := by
  induction h with
  | done => exact .inl ⟨rfl, rfl⟩
  | stop hstop => exact .inr ⟨rfl, [], _, _, _, rfl, rfl, hstop⟩
  | @proceed memory between after h _ _ _ _ _ ih =>
    rcases ih with ⟨rfl, rfl⟩ | ⟨rfl, front, last, back, m, rfl, rfl, hstop⟩
    · exact .inl ⟨rfl, rfl⟩
    · exact .inr ⟨rfl, h :: front, last, back, m, rfl, rfl, hstop⟩

theorem ReadOnly.noting (hvisitor : visitor.ReadOnly) : visitor.noting.ReadOnly := by
  intro h v
  exact hvisitor h ⟨v.sheet, v.memory.1⟩

/-- The list that is noted is the list of what was shown. -/
theorem Visits.noting (h : visitor.Visits s memory hs shown verdict after) (before : List Handle) :
    visitor.noting.Visits s (memory, before) hs shown verdict (after, before ++ shown) := by
  induction h generalizing before with
  | done =>
    rw [List.append_nil]
    exact .done
  | stop hstop => exact .stop (by simp [Visitor.noting, hstop])
  | @proceed memory between after h hs shown verdict hproceed _ ih =>
    have hrest := ih (before ++ [h])
    rw [List.append_assoc] at hrest
    exact .proceed (by simp [Visitor.noting, hproceed]) hrest

theorem counting_visits (s : Sheet) (n : Nat) (hs : List Handle) :
    counting.Visits s n hs hs .proceed (n + hs.length) := by
  induction hs generalizing n with
  | nil => exact .done
  | cons h hs ih =>
    have hrest := ih (n + 1)
    rw [Nat.add_assoc, Nat.add_comm 1] at hrest
    exact .proceed rfl hrest

end Visitor

/-! ### Document order -/

namespace Forest

variable {f : Forest Entry} {t u : Tree Entry} {h : Handle}

theorem handle_mem_of_mem_subtrees (hu : u ∈ f.subtrees) : u.value.handle ∈ f.handles := by
  rw [handles, preorder_eq_map_subtrees, List.map_map]
  exact List.mem_map_of_mem hu

/-- **Every tree of a forest is found**, if handles are distinct. -/
theorem find?_of_mem_subtrees (hf : f.handles.Nodup) (hu : u ∈ f.subtrees) :
    f.find? u.value.handle = some u := by
  induction f with
  | nil => cases hu
  | cons e children next ihChildren ihNext =>
    obtain ⟨⟨heChildren, heNext⟩, hchildren, hnext, hapart⟩ := nodup_cons_iff.mp hf
    rw [subtrees, List.mem_cons, List.mem_append] at hu
    rcases hu with rfl | hu | hu
    · exact if_pos rfl
    · have hne : e.handle ≠ u.value.handle :=
        fun heq => heChildren (heq ▸ handle_mem_of_mem_subtrees hu)
      rw [find?, if_neg hne, ihChildren hchildren hu]
    · have hmem := handle_mem_of_mem_subtrees hu
      have hne : e.handle ≠ u.value.handle := fun heq => heNext (heq ▸ hmem)
      rw [find?, if_neg hne, find?_eq_none_iff.mpr fun hin => hapart _ hin hmem]
      exact ihNext hnext hu

theorem subtrees_subset_of_find? (ht : f.find? h = some t) :
    t.children.subtrees ⊆ f.subtrees := by
  induction f with
  | nil => cases ht
  | cons e children next ihChildren ihNext =>
    intro u hu
    rw [find?] at ht
    refine List.mem_cons_of_mem _ (List.mem_append.mpr ?_)
    split at ht
    · cases ht
      exact .inl hu
    · split at ht
      · next hfound =>
        cases ht
        exact .inl (ihChildren hfound hu)
      · exact .inr (ihNext ht hu)

end Forest

namespace Sheet

variable {σ : Type} {s : Sheet} {h k p : Handle} {w : Walker} {visitor : Visitor σ}

/-- **The nodes below a node**, in document order. -/
def below (s : Sheet) (h : Handle) : List Handle :=
  ((s.find? h).map fun t => t.children.handles).getD []

/-- The walker selects the node. -/
def selects (s : Sheet) (w : Walker) (h : Handle) : Bool := (s.node? h).any w.selects

/-- **What a walk is to show**: the nodes below the root that the walker selects, in document
order. -/
def selected (s : Sheet) (w : Walker) : List Handle := (s.below root).filter (s.selects w)

theorem below_of_find? {t : Tree Entry} (ht : s.find? h = some t) :
    s.below h = t.children.handles := by
  rw [below, ht]
  rfl

theorem below_of_not_isLive (hh : ¬ s.IsLive h) : s.below h = [] := by
  rw [below, find?_of_not_isLive hh]
  rfl

namespace WellFormed

/-- All trees inside of a tree are found. -/
theorem find?_of_mem_subtrees (hs : s.WellFormed) {t u : Tree Entry} (ht : s.find? h = some t)
    (hu : u ∈ t.children.subtrees) : s.find? u.value.handle = some u :=
  Forest.find?_of_mem_subtrees hs.nodup (Forest.subtrees_subset_of_find? ht hu)

/-- **Document order**: each child in turn, with what is below it. -/
theorem below_eq (hs : s.WellFormed) (p : Handle) :
    s.below p = (s.children p).flatMap fun c => c :: s.below c := by
  by_cases hp : s.IsLive p
  · obtain ⟨t, ht⟩ := hp.exists_find?
    rw [below_of_find? ht, children_of_find? ht]
    have hfound : ∀ u ∈ t.children.subtrees, s.find? u.value.handle = some u :=
      fun _ hu => hs.find?_of_mem_subtrees ht hu
    generalize t.children = g at hfound
    induction g with
    | nil => rfl
    | cons e children next _ ih =>
      have hself := hfound _ List.mem_cons_self
      rw [Forest.handles_cons, Forest.topHandles_cons, List.flatMap_cons, List.cons_append,
        below_of_find? hself,
        ih fun u hu => hfound u (List.mem_cons_of_mem _ (List.mem_append_right _ hu))]
  · rw [children_of_not_isLive hp, below_of_not_isLive hp]
    rfl

theorem nodup_below (hs : s.WellFormed) (h : Handle) : (s.below h).Nodup := by
  by_cases hh : s.IsLive h
  · obtain ⟨t, ht⟩ := hh.exists_find?
    rw [below_of_find? ht]
    exact (List.nodup_cons.mp (Forest.nodup_of_find? hs.nodup ht)).2
  · rw [below_of_not_isLive hh]
    exact List.nodup_nil

/-- What is below a node are its descendants. -/
theorem mem_below_iff (hs : s.WellFormed) : k ∈ s.below h ↔ TransGen s.IsParent h k := by
  by_cases hh : s.IsLive h
  · obtain ⟨t, ht⟩ := hh.exists_find?
    have hself : t.value.handle = h := Forest.handle_of_find? ht
    have hnot : h ∉ t.children.handles :=
      hself ▸ (List.nodup_cons.mp (Forest.nodup_of_find? hs.nodup ht)).1
    rw [below_of_find? ht]
    constructor
    · intro hk
      have hlive : s.IsLive k :=
        isLive_iff.mpr (Forest.handles_subset_of_find? ht (List.mem_cons_of_mem _ hk))
      have hline := (hs.mem_handles_iff ht hlive).mp (List.mem_cons_of_mem _ hk)
      refine (Relation.reflTransGen_iff_eq_or_transGen.mp hline).resolve_left ?_
      rintro rfl
      exact hnot hk
    · intro hline
      obtain ⟨p, -, hp⟩ := TransGen.tail'_iff.mp hline
      have hmem := (hs.mem_handles_iff ht (hs.isLive_of_isParent hp).2).mpr hline.to_reflTransGen
      refine (List.mem_cons.mp hmem).resolve_left ?_
      rintro rfl
      exact hs.acyclic _ (hself ▸ hline)
  · rw [below_of_not_isLive hh]
    constructor
    · intro hk
      cases hk
    · intro hline
      obtain ⟨c, hc, -⟩ := TransGen.head'_iff.mp hline
      exact absurd (hs.isLive_of_isParent hc).1 hh

/-- **What is below the root** are the attached nodes but the root. -/
theorem mem_below_root_iff (hs : s.WellFormed) :
    h ∈ s.below Sheet.root ↔ s.isAttached h = true ∧ h ≠ Sheet.root := by
  rw [hs.mem_below_iff, hs.isAttached_iff, Relation.reflTransGen_iff_eq_or_transGen]
  constructor
  · intro hline
    refine ⟨.inr hline, ?_⟩
    rintro rfl
    exact hs.acyclic _ hline
  · rintro ⟨hline, hne⟩
    exact hline.resolve_left hne

/-- Nothing is below a node that cannot hold children. -/
theorem below_of_not_isContainer (hs : s.WellFormed)
    (hleaf : (s.node? h).any (·.content.isContainer) = false) : s.below h = [] := by
  cases hn : s.node? h with
  | none =>
    refine below_of_not_isLive fun hh => ?_
    rw [IsLive, hn] at hh
    cases hh
  | some n =>
    have hchildren : s.children h = [] := by
      by_contra hne
      rw [hn, Option.any_some, hs.isContainer hn hne] at hleaf
      cases hleaf
    rw [hs.below_eq, hchildren]
    rfl

/-- A tree whose top cannot hold children has none. -/
theorem children_eq_nil (hs : s.WellFormed) {t : Tree Entry} (ht : s.find? h = some t)
    (hleaf : t.value.node.content.isContainer = false) : t.children = .nil := by
  rw [← Forest.topHandles_eq_nil_iff, ← children_of_find? ht]
  by_contra hne
  exact Bool.eq_false_iff.mp hleaf (hs.isContainer (node?_of_find? ht) hne)

end WellFormed

/-! ### Frames -/

/-- **What the frames of a walk wait for**, if the sheet is not changed. -/
def pending (s : Sheet) (frames : List Frame) : List Handle :=
  frames.flatMap fun frame => frame.waiting.flatMap fun c => c :: s.below c

/-- The children that wait in a frame are children of its container. -/
def Framed (s : Sheet) (frames : List Frame) : Prop :=
  ∀ frame ∈ frames, ∀ c ∈ frame.waiting, s.parent? c = some frame.container

variable {c : Handle} {waiting : List Handle} {frames : List Frame}

theorem Framed.outer {frame : Frame} (hframes : s.Framed (frame :: frames)) : s.Framed frames :=
  fun inner hinner => hframes inner (List.mem_cons_of_mem _ hinner)

/-- A child that has its turn leaves what is below it, and what was waited for. -/
theorem pending_turn (hs : s.WellFormed) (hc : s.parent? c = some p) :
    s.pending (⟨p, c :: waiting⟩ :: frames) =
      c :: s.pending (s.descend p c (⟨p, waiting⟩ :: frames)) := by
  have hdescend : s.pending (s.descend p c (⟨p, waiting⟩ :: frames)) =
      s.below c ++ s.pending (⟨p, waiting⟩ :: frames) := by
    rw [descend]
    split
    · rw [pending, List.flatMap_cons, hs.below_eq c]
      rfl
    · next hstay =>
      have hleaf : (s.node? c).any (·.content.isContainer) = false :=
        Bool.eq_false_iff.mpr fun hcontainer => hstay ⟨hc, hcontainer⟩
      rw [hs.below_of_not_isContainer hleaf]
      rfl
  rw [hdescend]
  simp [pending]

theorem Framed.turn (hs : s.WellFormed) (hframes : s.Framed (⟨p, c :: waiting⟩ :: frames)) :
    s.Framed (s.descend p c (⟨p, waiting⟩ :: frames)) := by
  have hrest : s.Framed (⟨p, waiting⟩ :: frames) := by
    intro frame hframe
    rcases List.mem_cons.mp hframe with rfl | hframe
    · exact fun k hk => hframes _ List.mem_cons_self k (List.mem_cons_of_mem _ hk)
    · exact hframes.outer frame hframe
  rw [descend]
  split
  · intro frame hframe
    rcases List.mem_cons.mp hframe with rfl | hframe
    · exact fun k hk => hs.parent?_eq_some_iff.mpr hk
    · exact hrest frame hframe
  · exact hrest

theorem length_descend_le : (s.descend p c frames).length ≤ frames.length + 1 := by
  rw [descend]
  split
  · exact le_rfl
  · exact Nat.le_succ _

theorem walkFrames_nil (turns : Nat) (v : Visit σ) :
    walkFrames w visitor turns [] v = (some .proceed, v) := by
  cases turns <;> rfl

/-- **What the frames of a walk stand for.**  A visitor that only looks is shown what is pending, as
far as the walker selects it.  Each node that is pending takes a turn, and so does each container for
its end. -/
theorem walkFrames_of_visits (hs : s.WellFormed) {turns : Nat} {frames : List Frame}
    (hframes : s.Framed frames)
    (hturns : 2 * (s.pending frames).length + frames.length ≤ turns) {memory after : σ}
    {shown : List Handle} {verdict : Verdict}
    (hvisits : visitor.Visits s memory ((s.pending frames).filter (s.selects w)) shown verdict
      after) :
    walkFrames w visitor turns frames ⟨s, memory⟩ = (some verdict, ⟨s, after⟩) := by
  -- The turns that are left always suffice for what is pending.
  induction turns generalizing frames memory shown with
  | zero =>
    obtain rfl : frames = [] := List.length_eq_zero_iff.mp (by omega)
    cases hvisits
    exact walkFrames_nil _ _
  | succ turns ih =>
    cases frames with
    | nil =>
      cases hvisits
      exact walkFrames_nil _ _
    | cons frame frames =>
      obtain ⟨p, waiting⟩ := frame
      cases waiting with
      | nil =>
        rw [walkFrames]
        refine ih hframes.outer ?_ hvisits
        rw [List.length_cons] at hturns
        exact Nat.le_of_succ_le_succ hturns
      | cons c waiting =>
        have hc : s.parent? c = some p := hframes _ List.mem_cons_self c List.mem_cons_self
        have hlength := @length_descend_le s p c (⟨p, waiting⟩ :: frames)
        rw [pending_turn hs hc] at hturns hvisits
        simp only [List.length_cons] at hturns hlength
        -- One node less is pending, and at most one frame is new.
        have hrest := fun memory shown => @ih (s.descend p c (⟨p, waiting⟩ :: frames))
          (hframes.turn hs) (by omega) memory shown
        have hoffer : offer w visitor c ⟨s, memory⟩ =
            if s.selects w c then visitor c ⟨s, memory⟩ else (.proceed, ⟨s, memory⟩) := rfl
        rw [walkFrames, if_neg (not_not.mpr hc), hoffer]
        by_cases hselects : s.selects w c = true
        · rw [List.filter_cons_of_pos hselects] at hvisits
          rw [if_pos hselects]
          cases hvisits with
          | stop hstop => rw [hstop]
          | proceed hproceed hvisits =>
            rw [hproceed]
            exact hrest _ _ hvisits
        · rw [List.filter_cons_of_neg hselects] at hvisits
          rw [if_neg hselects]
          exact hrest _ _ hvisits

/-! ### Whole walks -/

theorem mem_selected_iff (hs : s.WellFormed) : h ∈ s.selected w ↔
    s.isAttached h = true ∧ h ≠ root ∧ ∃ n, s.node? h = some n ∧ w.selects n = true := by
  rw [selected, List.mem_filter, hs.mem_below_root_iff, selects, Option.any_eq_true, and_assoc]

theorem nodup_selected (hs : s.WellFormed) (w : Walker) : (s.selected w).Nodup :=
  (hs.nodup_below root).filter _

theorem walk_of_visits (hs : s.WellFormed) {turns : Nat}
    (hturns : 2 * (s.below root).length + 1 ≤ turns) {memory after : σ} {shown : List Handle}
    {verdict : Verdict} (hvisits : visitor.Visits s memory (s.selected w) shown verdict after) :
    s.walk turns w visitor memory = (some verdict, ⟨s, after⟩) := by
  have hpending : s.pending [s.enter root] = s.below root := by
    rw [hs.below_eq root]
    simp [pending, enter]
  have hframes : s.Framed [s.enter root] := by
    intro frame hframe
    obtain rfl := List.mem_singleton.mp hframe
    exact fun c hc => hs.parent?_eq_some_iff.mpr hc
  rw [selected, ← hpending] at hvisits
  rw [← hpending] at hturns
  exact walkFrames_of_visits hs hframes hturns hvisits

/-! ### Counting -/

/-- **The statistics of a sheet**, by four walks that count. -/
def collect (s : Sheet) (turns : Nat) : Stats :=
  let count (w : Walker) : Nat := (s.walk turns w Visitor.counting 0).2.memory
  { rules := count .rules
    atRules := count .atRules
    declarations := count .declarations
    comments := count .comments }

theorem walk_counting (hs : s.WellFormed) {turns : Nat}
    (hturns : 2 * (s.below root).length + 1 ≤ turns) (w : Walker) :
    (s.walk turns w Visitor.counting 0).2.memory = (s.selected w).length := by
  rw [walk_of_visits hs hturns (Visitor.counting_visits s 0 (s.selected w)), Nat.zero_add]

/-- In a well-formed sheet nothing is hidden below a node that cannot hold children. -/
theorem passed_eq (hs : s.WellFormed) {g : Forest Entry}
    (hfound : ∀ u ∈ g.subtrees, s.find? u.value.handle = some u) :
    (g.map Entry.node).passed = g.preorder.map Entry.node := by
  induction g with
  | nil => rfl
  | cons e children next ihChildren ihNext =>
    have hself := hfound _ List.mem_cons_self
    have hinner := ihChildren fun u hu =>
      hfound u (List.mem_cons_of_mem _ (List.mem_append_left _ hu))
    have hnext := ihNext fun u hu => hfound u (List.mem_cons_of_mem _ (List.mem_append_right _ hu))
    rw [Forest.map, Forest.passed, hnext, Forest.preorder, List.map_cons, List.map_append]
    split
    · rw [hinner]
    · next hleaf =>
      have hnil : children = .nil := hs.children_eq_nil hself (Bool.eq_false_iff.mpr hleaf)
      rw [hnil]
      rfl

/-- **The nodes that are passed** and that the walker selects are as many as it shows. -/
theorem countP_passed (hs : s.WellFormed) (w : Walker) :
    s.attachedTree.children.passed.countP w.selects = (s.selected w).length := by
  obtain ⟨t, ht⟩ := hs.isLive_root.exists_find?
  have hfound : ∀ u ∈ t.children.subtrees, s.find? u.value.handle = some u :=
    fun _ hu => hs.find?_of_mem_subtrees ht hu
  have htree : s.attachedTree.children = t.children.map Entry.node := by
    rw [attachedTree, tree?, ht]
    rfl
  rw [htree, passed_eq hs hfound, selected, below_of_find? ht, ← List.countP_eq_length_filter,
    Forest.handles, List.countP_map, List.countP_map]
  refine List.countP_congr fun e he => ?_
  rw [Forest.preorder_eq_map_subtrees] at he
  obtain ⟨u, hu, rfl⟩ := List.mem_map.mp he
  rw [Function.comp_apply, Function.comp_apply, selects, node?_of_find? (hfound u hu)]
  rfl

/-- A walker that does not select roots shows as many nodes as there are. -/
theorem ncard_selected (hs : s.WellFormed)
    (hw : ∀ n : Node, n.content = .root → w.selects n = false) :
    {h | s.isAttached h = true ∧ ∃ n, s.node? h = some n ∧ w.selects n = true}.ncard =
      (s.selected w).length := by
  have hset : {h | s.isAttached h = true ∧ ∃ n, s.node? h = some n ∧ w.selects n = true} =
      ((s.selected w).toFinset : Set Handle) := by
    ext h
    rw [Set.mem_ofPred_eq, Finset.mem_coe, List.mem_toFinset, mem_selected_iff hs]
    refine and_congr_right fun _ => ⟨fun hn => ⟨?_, hn⟩, And.right⟩
    rintro rfl
    obtain ⟨n, hn, hselects⟩ := hn
    rw [hw n ((hs.proper _ (row_mem hs.nodup hn)).root.mpr rfl)] at hselects
    cases hselects
  rw [hset, Set.ncard_coe_finset, List.toFinset_card_of_nodup (nodup_selected hs w)]

/-! ### Main statement -/

/-- **A walk that only looks** shows what is below the root in document order, as far as the walker
selects it, each node once, and ends right behind the node on which the visitor stops.  The sheet is
as it was. -/
theorem walk_of_readOnly (hs : s.WellFormed) {turns : Nat}
    (hturns : 2 * (s.below root).length + 1 ≤ turns) :
    (∀ {σ : Type} (visitor : Visitor σ) (w : Walker) (memory : σ), visitor.ReadOnly →
      ∃ shown verdict after,
        s.walk turns w visitor memory = (some verdict, ⟨s, after⟩) ∧
        s.walk turns w visitor.noting (memory, []) = (some verdict, ⟨s, (after, shown)⟩) ∧
        visitor.Visits s memory (s.selected w) shown verdict after ∧
        ((verdict = .proceed ∧ shown = s.selected w) ∨
          (verdict = .stop ∧ ∃ front last back m, s.selected w = front ++ last :: back ∧
            shown = front ++ [last] ∧ visitor last ⟨s, m⟩ = (.stop, ⟨s, after⟩)))) ∧
    (∀ w, (s.selected w).Nodup ∧ ∀ h, h ∈ s.selected w ↔
      s.isAttached h = true ∧ h ≠ root ∧ ∃ n, s.node? h = some n ∧ w.selects n = true) ∧
    s.collect turns = Stats.ofTree s.attachedTree ∧
    (s.collect turns).rules =
      {h | s.isAttached h = true ∧ ∃ n, s.node? h = some n ∧ n.content.isRule = true}.ncard ∧
    (s.collect turns).atRules =
      {h | s.isAttached h = true ∧ ∃ n, s.node? h = some n ∧ n.content.isAtRule = true}.ncard ∧
    (s.collect turns).declarations =
      {h | s.isAttached h = true ∧ ∃ n, s.node? h = some n ∧ n.content.isDeclaration = true}.ncard ∧
    (s.collect turns).comments =
      {h | s.isAttached h = true ∧ ∃ n, s.node? h = some n ∧ n.content.isComment = true}.ncard := by
  refine ⟨fun visitor w memory hvisitor => ?_, fun w => ⟨nodup_selected hs w, fun h =>
    mem_selected_iff hs⟩, ?_, ?_, ?_, ?_, ?_⟩
  · obtain ⟨shown, verdict, after, hvisits⟩ := hvisitor.exists_visits s memory (s.selected w)
    have hnoted := walk_of_visits hs hturns (hvisits.noting [])
    exact ⟨shown, verdict, after, walk_of_visits hs hturns hvisits, hnoted, hvisits, hvisits.cut⟩
  · simp only [collect, walk_counting hs hturns, Stats.ofTree, countP_passed hs]
  · exact (walk_counting hs hturns .rules).trans (ncard_selected hs fun n hn => by
      rw [Walker.selects, hn]; rfl).symm
  · exact (walk_counting hs hturns .atRules).trans (ncard_selected hs fun n hn => by
      rw [Walker.selects, hn]; rfl).symm
  · exact (walk_counting hs hturns .declarations).trans (ncard_selected hs fun n hn => by
      rw [Walker.selects, hn]; rfl).symm
  · exact (walk_counting hs hturns .comments).trans (ncard_selected hs fun n hn => by
      rw [Walker.selects, hn]; rfl).symm

/-- A visitor that stops on the second node that it sees. -/
def secondStop : Visitor Nat := fun _ v =>
  (if v.memory = 1 then .stop else .proceed, { v with memory := v.memory + 1 })

theorem walk_of_readOnly_busySheet :
    ∃ t, parse busySheet false = .ok t ∧ (Sheet.ofTree t).selected .all = [1, 2, 3, 4, 5, 6] ∧
      secondStop.Visits (Sheet.ofTree t) 0 ((Sheet.ofTree t).selected .all) [1, 2] .stop 2 ∧
      (Sheet.ofTree t).walk 13 .all secondStop 0 = (some .stop, ⟨Sheet.ofTree t, 2⟩) ∧
      (Sheet.ofTree t).collect 13 = ⟨2, 1, 2, 1⟩ ∧
      {h | (Sheet.ofTree t).isAttached h = true ∧
        ∃ n, (Sheet.ofTree t).node? h = some n ∧ n.content.isRule = true}.ncard = 2 := by
  have hrun : (parse busySheet false).toOption.any (fun t =>
      let s := Sheet.ofTree t
      let noted := s.walk 13 .all secondStop.noting (0, [])
      s.selected .all == [1, 2, 3, 4, 5, 6] && decide (2 * (s.below root).length + 1 ≤ 13) &&
        noted.1 == some .stop && noted.2.memory == (2, [1, 2]) &&
          s.collect 13 == ⟨2, 1, 2, 1⟩) = true := by
    decide +kernel
  obtain ⟨t, ht, hrun⟩ := exists_ok_of_any hrun
  obtain ⟨hrun, hcollect⟩ := Bool.and_eq_true_iff.mp hrun
  obtain ⟨hrun, hmemory⟩ := Bool.and_eq_true_iff.mp hrun
  obtain ⟨hrun, hverdict⟩ := Bool.and_eq_true_iff.mp hrun
  obtain ⟨hselected, hturns⟩ := Bool.and_eq_true_iff.mp hrun
  obtain ⟨hwalks, -, -, hrules, -⟩ :=
    walk_of_readOnly (wellFormed_of_parse ht) (of_decide_eq_true hturns)
  obtain ⟨shown, verdict, after, hwalk, hnoted, hvisits, -⟩ :=
    hwalks secondStop .all 0 fun _ _ => rfl
  rw [hnoted] at hverdict hmemory
  obtain rfl : verdict = .stop := Option.some.inj (beq_iff_eq.mp hverdict)
  obtain ⟨rfl, rfl⟩ : after = 2 ∧ shown = [1, 2] := Prod.mk.inj (beq_iff_eq.mp hmemory)
  rw [beq_iff_eq.mp hcollect] at hrules
  exact ⟨t, ht, beq_iff_eq.mp hselected, hvisits, hwalk, beq_iff_eq.mp hcollect, hrules.symm⟩

end Sheet

end LosslessCss
