import LosslessCss.Proofs.Turns

/-!
# Walks that take nodes away

A visitor may detach nodes, remove them and change what they say, anywhere in the sheet: the node it
sees, one that waits, or a container that the walk is in.  None of this makes a child list longer,
so a sheet gets thinner from visit to visit (`Sheet.Thins`).  What waits in the frames of a walk has
once been a child of its container, so it waits in document order of the sheet as it was at first
(`Sheet.turnsFrames_sublist`), and a walk that only sees thinner sheets runs out of nodes
(`Sheet.walkFrames_of_trims`).

Which nodes have a turn is settled by the turns of their parents.  A node has one if, behind the
turn of its parent, the parent still stands in its place and the node is still its child
(`Sheet.exists_turn_iff`).

A sheet whose nodes are changed need not stay well-formed, because an at-rule with children may lose
its body.  What is needed here is less: handles stay distinct, and each row comes from a row with at
least the same children and with a node of the same kind.

## Main Definitions

* `Sheet.Trims`, `Visitor.Trims` : taking nodes away and changing them, and visitors that do no more
* `Sheet.Thins` : a sheet with less in it

## Main Statements

* `Sheet.Trims.thins` : taking away thins the sheet
* `Sheet.walk_of_trims` : which nodes such a walk shows
-/

namespace LosslessCss

open Relation (ReflTransGen TransGen)

/-! ### Taking away -/

/-- The kind of a node decides whether it can hold children. -/
theorem Content.isContainer_eq_of_kindName {c c' : Content} (h : c.kindName = c'.kindName) :
    c.isContainer = c'.isContainer := by
  cases c <;> cases c' <;> simp_all [kindName, isContainer]

namespace Sheet

variable {s s' s'' : Sheet} {h k c p : Handle}

/-- **Taking a node away, or changing it** to a node of the same kind. -/
inductive Trims : Sheet → Sheet → Prop
  | detach {s s' : Sheet} {h : Handle} (hdetach : s.detach h = .ok s') : Trims s s'
  | remove {s s' : Sheet} {h : Handle} (hremove : s.remove h = .ok s') : Trims s s'
  | change {s : Sheet} {h : Handle} {change : Node → Node}
      (hkind : ∀ n, s.node? h = some n → (change n).content.kindName = n.content.kindName) :
      Trims s (s.update h change)

/-- **The second sheet is the first with less in it**: each of its rows comes from a row with the
same children or more, and with a node of the same kind. -/
structure Thins (s s' : Sheet) : Prop where
  nodup : s'.trees.handles.Nodup
  row : ∀ r' ∈ s'.trees.rows, ∃ r ∈ s.trees.rows, r.handle = r'.handle ∧
    r'.children.Sublist r.children ∧ r'.node.content.kindName = r.node.content.kindName

namespace Thins

theorem refl (hs : s.trees.handles.Nodup) : s.Thins s :=
  ⟨hs, fun r hr => ⟨r, hr, rfl, .refl _, rfl⟩⟩

theorem trans (h : s.Thins s') (h' : s'.Thins s'') : s.Thins s'' := by
  refine ⟨h'.nodup, fun r'' hr'' => ?_⟩
  obtain ⟨r', hr', hhandle', hchildren', hkind'⟩ := h'.row r'' hr''
  obtain ⟨r, hr, hhandle, hchildren, hkind⟩ := h.row r' hr'
  exact ⟨r, hr, hhandle.trans hhandle', hchildren'.trans hchildren, hkind'.trans hkind⟩

/-- **Child lists get shorter** by leaving children out. -/
theorem children (h : s.Thins s') (hs : s.WellFormed) (p : Handle) :
    (s'.children p).Sublist (s.children p) := by
  by_cases hp : s'.IsLive p
  · obtain ⟨n, hn⟩ := hp.exists_node?
    obtain ⟨r, hr, hhandle, hchildren, -⟩ := h.row _ (row_mem h.nodup hn)
    obtain rfl : r.handle = p := hhandle
    rwa [((mem_rows_iff hs.nodup).mp hr).2]
  · rw [children_of_not_isLive hp]
    exact List.nil_sublist _

theorem parent?_eq_some_iff (h : s.Thins s') : s'.parent? c = some p ↔ c ∈ s'.children p :=
  Sheet.parent?_eq_some_iff h.nodup

/-- What has children is a container. -/
theorem isContainer (h : s.Thins s') (hs : s.WellFormed) (hc : c ∈ s'.children p) :
    (s'.node? p).any (·.content.isContainer) = true := by
  obtain ⟨n', hn'⟩ := (isLive_of_mem_children hc).exists_node?
  obtain ⟨r, hr, hhandle, hchildren, hkind⟩ := h.row _ (row_mem h.nodup hn')
  obtain rfl : r.handle = p := hhandle
  obtain ⟨hn, hold⟩ := (mem_rows_iff hs.nodup).mp hr
  have hne : s.children r.handle ≠ [] := by
    rw [hold]
    exact List.ne_nil_of_mem (hchildren.subset hc)
  rw [hn', Option.any_some, Content.isContainer_eq_of_kindName hkind]
  exact hs.isContainer hn hne

end Thins

/-- What can be moved is there. -/
theorem find?_of_checkMovable {t : Tree Entry} (hcheck : s.checkMovable h = .ok t) :
    s.find? h = some t := by
  rcases s.movable_or h with hh | ⟨e, he⟩
  · obtain ⟨u, hu, hcheck'⟩ := checkMovable_of_movable hh
    exact hu.trans (congrArg some (Except.ok.inj (hcheck'.symm.trans hcheck)))
  · cases (checkMovable_of_immovable he).symm.trans hcheck

theorem exists_of_detach (hdetach : s.detach h = .ok s') :
    ∃ t, s.find? h = some t ∧
      s' = { s with trees := s.trees.erase h ++ .cons t.value t.children .nil } := by
  cases hcheck : s.checkMovable h with
  | error e =>
    rw [detach, hcheck] at hdetach
    cases hdetach
  | ok t =>
    rw [detach, hcheck] at hdetach
    exact ⟨t, find?_of_checkMovable hcheck, (Except.ok.inj hdetach).symm⟩

theorem exists_of_remove (hremove : s.remove h = .ok s') :
    ∃ t, s.find? h = some t ∧ s' = { s with trees := s.trees.erase h } := by
  cases hcheck : s.checkMovable h with
  | error e =>
    rw [remove, hcheck] at hremove
    cases hremove
  | ok t =>
    rw [remove, hcheck] at hremove
    exact ⟨t, find?_of_checkMovable hcheck, (Except.ok.inj hremove).symm⟩

/-- **Taking away thins the sheet.** -/
theorem Trims.thins (htrims : s.Trims s') (hs : s.trees.handles.Nodup) : s.Thins s' := by
  cases htrims with
  | @detach _ h hdetach =>
    obtain ⟨t, ht, rfl⟩ := exists_of_detach hdetach
    have hrows := Forest.rows_detach hs ht
    constructor
    · rw [← Forest.map_handle_rows, (hrows.map Row.handle).nodup_iff, List.map_map]
      exact (Forest.map_handle_rows s.trees).symm ▸ hs
    · intro r' hr'
      obtain ⟨r, hr, rfl⟩ := List.mem_map.mp (hrows.mem_iff.mp hr')
      exact ⟨r, hr, rfl, List.erase_sublist, rfl⟩
  | @remove _ h hremove =>
    obtain ⟨t, ht, rfl⟩ := exists_of_remove hremove
    obtain ⟨rest, hrows, herased⟩ := Forest.exists_rows_erase hs ht
    refine ⟨Forest.nodup_erase hs ht, fun r' hr' => ?_⟩
    change r' ∈ (s.trees.erase h).rows at hr'
    rw [herased] at hr'
    obtain ⟨r, hr, rfl⟩ := List.mem_map.mp hr'
    exact ⟨r, hrows.mem_iff.mpr (List.mem_append_right _ hr), rfl, List.erase_sublist, rfl⟩
  | @change h f hkind =>
    constructor
    · exact (Forest.handles_update h f s.trees).symm ▸ hs
    · intro r' hr'
      change r' ∈ (s.trees.update h f).rows at hr'
      rw [Forest.rows_update hs] at hr'
      obtain ⟨r, hr, rfl⟩ := List.mem_map.mp hr'
      refine ⟨r, hr, (change_handle f r).symm, ?_, ?_⟩
      · rw [Row.change]
        split <;> exact .refl _
      · rw [Row.change]
        split
        · next hhandle =>
          subst hhandle
          exact hkind _ ((mem_rows_iff hs).mp hr).1
        · rfl

theorem Thins.of_trims (htrims : ReflTransGen Trims s s') (hs : s.trees.handles.Nodup) :
    s.Thins s' := by
  induction htrims with
  | refl => exact .refl hs
  | tail _ hstep ih => exact ih.trans (hstep.thins ih.nodup)

end Sheet

/-- **A visitor that only takes nodes away or changes them**, and never stops the walk. -/
structure Visitor.Trims {σ : Type} (visitor : Visitor σ) : Prop where
  proceeds : ∀ h v, (visitor h v).1 = .proceed
  trims : ∀ h v, ReflTransGen Sheet.Trims v.sheet (visitor h v).2.sheet

namespace Sheet

variable {σ : Type} {s s' : Sheet} {h k c p : Handle} {w : Walker} {visitor : Visitor σ} {n : Nat}
  {waiting : List Handle} {frames : List Frame} {v v' : Visit σ} {memory : σ}

/-! ### What waits -/

theorem exists_turn_of_trims (hvisitor : visitor.Trims) (hthins : s.Thins v.sheet) :
    ∃ v', turn w visitor p c v = (.proceed, v') ∧ s.Thins v'.sheet := by
  by_cases ht : v.sheet.parent? c = some p ∧ v.sheet.selects w c = true
  · rw [turn_of_isShown ht.1 ht.2]
    exact ⟨(visitor c v).2, Prod.ext (hvisitor.proceeds c v) rfl,
      hthins.trans (.of_trims (hvisitor.trims c v) hthins.nodup)⟩
  · exact ⟨v, turn_of_not_isShown ht, hthins⟩

/-- **A turn takes its child off what waits**, and what comes up behind it has waited below it. -/
theorem Thins.pending_descend (hthins : s.Thins s') (hs : s.WellFormed) :
    (c :: s.pending (s'.descend p c (⟨p, waiting⟩ :: frames))).Sublist
      (s.pending (⟨p, c :: waiting⟩ :: frames)) := by
  have hpending : s.pending (⟨p, c :: waiting⟩ :: frames) =
      c :: (s.below c ++ s.pending (⟨p, waiting⟩ :: frames)) := by
    simp [pending]
  rw [hpending]
  refine List.Sublist.cons_cons c ?_
  rw [descend]
  split
  · rw [pending, List.flatMap_cons, hs.below_eq c]
    exact ((hthins.children hs c).flatMap _).append_right _
  · exact List.sublist_append_right _ _

/-- **Turns come in document order** of the sheet as it was at first. -/
theorem turnsFrames_sublist (hs : s.WellFormed) (hvisitor : visitor.Trims)
    (hthins : s.Thins v.sheet) :
    ((turnsFrames w visitor n frames v).map Turn.child).Sublist (s.pending frames) := by
  fun_induction turnsFrames w visitor n frames v with
  | case1 | case2 => exact List.nil_sublist _
  | case3 n p frames v ih => exact ih hthins
  | case4 n p c waiting frames v v' hstop =>
    obtain ⟨_, hproceed, -⟩ := exists_turn_of_trims (w := w) (p := p) (c := c) hvisitor hthins
    cases hstop.symm.trans hproceed
  | case5 n p c waiting frames v v' hproceed ih =>
    obtain ⟨_, hproceed', hthins'⟩ :=
      exists_turn_of_trims (w := w) (p := p) (c := c) hvisitor hthins
    cases hproceed.symm.trans hproceed'
    exact ((ih hthins').cons_cons c).trans (hthins'.pending_descend hs)

/-- **A walk that only takes away comes to its end.** -/
theorem walkFrames_of_trims (hs : s.WellFormed) (hvisitor : visitor.Trims)
    (hthins : s.Thins v.sheet) (hturns : 2 * (s.pending frames).length + frames.length ≤ n) :
    (walkFrames w visitor n frames v).1 = some .proceed := by
  -- As in a walk that only looks, the turns that are left suffice for what waits.
  induction n generalizing frames v with
  | zero =>
    obtain rfl : frames = [] := List.length_eq_zero_iff.mp (by omega)
    rfl
  | succ n ih =>
    cases frames with
    | nil => rw [walkFrames_nil]
    | cons frame frames =>
      obtain ⟨p, waiting⟩ := frame
      cases waiting with
      | nil =>
        rw [walkFrames]
        refine ih hthins ?_
        rw [List.length_cons] at hturns
        exact Nat.le_of_succ_le_succ hturns
      | cons c waiting =>
        obtain ⟨v', hproceed, hthins'⟩ :=
          exists_turn_of_trims (w := w) (p := p) (c := c) hvisitor hthins
        rw [walkFrames_cons, hproceed]
        refine ih hthins' ?_
        have hpending : (c :: s.pending (v'.sheet.descend p c (⟨p, waiting⟩ :: frames))).length ≤
            (s.pending (⟨p, c :: waiting⟩ :: frames)).length :=
          (hthins'.pending_descend hs).length_le
        have hframes : (v'.sheet.descend p c (⟨p, waiting⟩ :: frames)).length ≤
            (⟨p, waiting⟩ :: frames : List Frame).length + 1 :=
          length_descend_le
        simp only [List.length_cons] at hturns hpending hframes
        omega

/-! ### Turns and parents -/

/-- What a walk enters at first waits below the root. -/
theorem pending_enter (hs : s.WellFormed) : s.pending [s.enter root] = s.below root := by
  rw [hs.below_eq root]
  simp [pending, enter]

theorem turns_sublist (hs : s.WellFormed) (hvisitor : visitor.Trims) :
    ((s.turns n w visitor memory).map Turn.child).Sublist (s.below root) := by
  rw [← pending_enter hs]
  exact turnsFrames_sublist hs hvisitor (.refl hs.nodup)

/-- All that a visitor which takes away gets to see are thinner sheets. -/
theorem thins_of_mem_turns (hs : s.WellFormed) (hvisitor : visitor.Trims) {t : Turn σ}
    (ht : t ∈ s.turns n w visitor memory) :
    s.Thins t.before.sheet ∧ s.Thins t.after.sheet := by
  have hvisit (h : Handle) (v : Visit σ) (hthins : s.Thins v.sheet) :
      s.Thins (visitor h v).2.sheet :=
    hthins.trans (.of_trims (hvisitor.trims h v) hthins.nodup)
  have hstart : s.Thins (⟨s, memory⟩ : Visit σ).sheet := .refl hs.nodup
  exact turnsFrames_invariant hvisit hstart t ht

/-- A child has its turn in the frame of its parent. -/
theorem isParent_of_mem_turns (hs : s.WellFormed) (hvisitor : visitor.Trims) {t : Turn σ}
    (ht : t ∈ s.turns n w visitor memory) : s.IsParent t.parent t.child := by
  obtain ⟨front, back, hlog⟩ := List.append_of_mem ht
  rcases exists_listed hlog with ⟨frame, hframe, hcontainer, hwaits⟩ | ⟨u, hu, hchild, -, hmem⟩
  · obtain rfl := List.mem_singleton.mp hframe
    rw [← hcontainer]
    exact hs.isParent_iff.mpr hwaits
  · have hin : u ∈ s.turns n w visitor memory := hlog ▸ List.mem_append_left _ hu
    rw [← hchild]
    exact hs.isParent_iff.mpr
      (((thins_of_mem_turns hs hvisitor hin).2.children hs u.child).subset hmem)

/-- **Who has a turn**: a child of the root, and a child of a node that, behind its own turn, still
stands in its place and still has the child. -/
theorem exists_turn_iff (hs : s.WellFormed) (hvisitor : visitor.Trims)
    (hend : (s.walk n w visitor memory).1 = some .proceed) (hp : s.parent? h = some p) :
    (∃ t ∈ s.turns n w visitor memory, t.child = h) ↔
      p = root ∨ ∃ u ∈ s.turns n w visitor memory, u.child = p ∧
        u.after.sheet.parent? p = s.parent? p ∧ u.after.sheet.parent? h = some p := by
  constructor
  · rintro ⟨t, ht, rfl⟩
    obtain rfl : t.parent = p := (isParent_of_mem_turns hs hvisitor ht).unique hp
    obtain ⟨front, back, hlog⟩ := List.append_of_mem ht
    rcases exists_listed hlog with ⟨frame, hframe, hcontainer, -⟩ | ⟨u, hu, hchild, henters, hmem⟩
    · obtain rfl := List.mem_singleton.mp hframe
      exact .inl hcontainer.symm
    · have hin : u ∈ s.turns n w visitor memory := hlog ▸ List.mem_append_left _ hu
      have hthins := (thins_of_mem_turns hs hvisitor hin).2
      refine .inr ⟨u, hin, hchild, ?_, hchild ▸ hthins.parent?_eq_some_iff.mpr hmem⟩
      rw [← hchild]
      exact henters.1.trans (isParent_of_mem_turns hs hvisitor hin).symm
  · rintro (rfl | ⟨u, hu, rfl, hstay, hchild⟩)
    · obtain ⟨t, ht, -, hchild⟩ := exists_turn_of_waiting hend
        (List.mem_singleton_self (s.enter root)) (hs.parent?_eq_some_iff.mp hp)
      exact ⟨t, ht, hchild⟩
    · have hthins := (thins_of_mem_turns hs hvisitor hu).2
      have hmem := hthins.parent?_eq_some_iff.mp hchild
      -- A node with a child is a container, so the walk enters it.
      have henters : u.Enters :=
        ⟨hstay.trans (isParent_of_mem_turns hs hvisitor hu), hthins.isContainer hs hmem⟩
      obtain ⟨front, back, hlog⟩ := List.append_of_mem hu
      obtain ⟨t, ht, -, hchild⟩ := exists_turn_of_enters hend hlog henters hmem
      exact ⟨t, hlog ▸ List.mem_append_right _ (List.mem_cons_of_mem _ ht), hchild⟩

/-- **Whoever has a turn had all its ancestors in their places** behind their turns. -/
theorem exists_turn_of_above (hs : s.WellFormed) (hvisitor : visitor.Trims)
    (hend : (s.walk n w visitor memory).1 = some .proceed) {t : Turn σ}
    (ht : t ∈ s.turns n w visitor memory) {a : Handle} (ha : a ≠ root)
    (habove : TransGen s.IsParent a t.child) :
    ∃ u ∈ s.turns n w visitor memory, u.child = a ∧
      u.after.sheet.parent? a = s.parent? a := by
  generalize hchild : t.child = h at habove
  induction habove generalizing t with
  | single hp =>
    obtain ⟨u, hu, hchild, hstay, -⟩ :=
      ((exists_turn_iff hs hvisitor hend hp).mp ⟨t, ht, hchild⟩).resolve_left ha
    exact ⟨u, hu, hchild, hstay⟩
  | @tail p h hline hp ih =>
    rcases (exists_turn_iff hs hvisitor hend hp).mp ⟨t, ht, hchild⟩ with rfl | ⟨u, hu, hchild, -⟩
    · -- Nothing is above the root.
      obtain ⟨q, -, hq⟩ := TransGen.tail'_iff.mp hline
      exact absurd hq (hs.not_isParent_of_mem_topHandles hs.root)
    · exact ih hu hchild

/-! ### Whole walks -/

/-- **What a walk shows to a visitor that takes nodes away.**  The walk comes to its end.  Each node
that was below the root has at most one turn, and the turns, and with them the nodes that are shown,
come in document order of the sheet as it was at first.  A node is shown if at its turn it has its
first parent and is selected; it has a turn if each of its ancestors below the root had its own first
parent right behind its turn, and the last of them still had the child.  So a node that has left
before its turn is passed over, and a node that leaves in its own turn is not entered. -/
theorem walk_of_trims (hs : s.WellFormed) (hvisitor : visitor.Trims)
    (hturns : 2 * (s.below root).length + 1 ≤ n) (w : Walker) (memory : σ)
    {log : List (Turn σ)} (hlog : s.turns n w visitor memory = log) {visited : List Handle}
    (hvisited : (s.walk n w visitor.noting (memory, [])).2.memory.2 = visited) :
    (s.walk n w visitor memory).1 = some .proceed ∧
      visited.Nodup ∧ visited.Sublist (s.below root) ∧
      (log.map Turn.child).Nodup ∧ (log.map Turn.child).Sublist (s.below root) ∧
      (∀ h, h ∈ visited ↔
        (∃ t ∈ log, t.child = h ∧ t.before.sheet.parent? h = s.parent? h ∧
          t.before.sheet.selects w h = true) ∧
        ∀ a ∈ s.below root, h ∈ s.below a →
          ∃ u ∈ log, u.child = a ∧ u.after.sheet.parent? a = s.parent? a) ∧
      (∀ h p, s.parent? h = some p →
        ((∃ t ∈ log, t.child = h) ↔ p = root ∨ ∃ u ∈ log, u.child = p ∧
          u.after.sheet.parent? p = s.parent? p ∧ u.after.sheet.parent? h = some p)) ∧
      (∀ t ∈ log, t.before.sheet.parent? t.child ≠ s.parent? t.child → t.child ∉ visited) ∧
      ∀ t ∈ log, t.after.sheet.parent? t.child ≠ s.parent? t.child →
        ∀ h ∈ s.below t.child, h ∉ visited := by
  have hshown : visited = Turn.shown w log := by
    rw [← hvisited, walk_noting, hlog]
  have hend : (s.walk n w visitor memory).1 = some .proceed :=
    walkFrames_of_trims hs hvisitor (.refl hs.nodup) ((pending_enter hs).symm ▸ hturns)
  have hsublist : ((s.turns n w visitor memory).map Turn.child).Sublist (s.below root) :=
    turns_sublist hs hvisitor
  have hnodup := hsublist.nodup (hs.nodup_below root)
  have hvisits : visited.Sublist (log.map Turn.child) := hshown ▸ List.filter_sublist.map _
  have habove {t : Turn σ} (ht : t ∈ s.turns n w visitor memory) {a : Handle} (ha : a ≠ root)
      (hh : t.child ∈ s.below a) := exists_turn_of_above hs hvisitor hend ht ha
        (hs.mem_below_iff.mp hh)
  have hne_root {h : Handle} (hh : h ∈ s.below root) : h ≠ root := by
    rintro rfl
    exact hs.acyclic _ (hs.mem_below_iff.mp hh)
  rw [hlog] at hsublist hnodup habove
  -- A node has one turn at most, so what holds in one of its turns holds in each.
  have hsame {t u : Turn σ} (ht : t ∈ log) (hu : u ∈ log) (hchild : t.child = u.child) : t = u :=
    List.inj_on_of_nodup_map hnodup ht hu hchild
  have hmem (h : Handle) : h ∈ visited ↔ ∃ t ∈ log, t.child = h ∧
      t.before.sheet.parent? h = s.parent? h ∧ t.before.sheet.selects w h = true := by
    rw [hshown, Turn.mem_shown_iff]
    refine exists_congr fun t => and_congr_right fun ht => ?_
    have hparent := isParent_of_mem_turns hs hvisitor (hlog.symm ▸ ht)
    constructor
    · rintro ⟨⟨hstays, hselects⟩, rfl⟩
      exact ⟨rfl, hstays.trans hparent.symm, hselects⟩
    · rintro ⟨rfl, hstays, hselects⟩
      exact ⟨⟨hstays.trans hparent, hselects⟩, rfl⟩
  refine ⟨hend, (hvisits.trans hsublist).nodup (hs.nodup_below root), hvisits.trans hsublist,
    hnodup, hsublist, fun h => ?_, fun h p hp => ?_, fun t ht hleft hin => ?_,
    fun t ht hleft h hh hin => ?_⟩
  · rw [hmem]
    refine ⟨fun hturn => ⟨hturn, fun a ha hh => ?_⟩, And.left⟩
    obtain ⟨t, ht, rfl, -⟩ := hturn
    exact habove ht (hne_root ha) hh
  · rw [← hlog]
    exact exists_turn_iff hs hvisitor hend hp
  · obtain ⟨u, hu, hchild, hstays, -⟩ := (hmem _).mp hin
    obtain rfl := hsame hu ht hchild
    exact hleft hstays
  · obtain ⟨u, hu, rfl, -⟩ := (hmem h).mp hin
    have hroot := hne_root (hsublist.subset (List.mem_map_of_mem ht))
    obtain ⟨t', ht', hchild, hstays⟩ := habove hu hroot hh
    obtain rfl := hsame ht' ht hchild
    exact hleft hstays

/-- A visitor that takes away the node behind each child of the root, and what it sees elsewhere. -/
def pruning : Visitor Unit := fun h v =>
  let edited := if v.sheet.parent? h = some root then v.sheet.detach (h + 1) else v.sheet.remove h
  (.proceed, { v with sheet := edited.toOption.getD v.sheet })

theorem pruning_trims : pruning.Trims where
  proceeds _ _ := rfl
  trims h v := by
    have hgetD {edited : Except EditError Sheet} (hedit : ∀ s, edited = .ok s → v.sheet.Trims s) :
        ReflTransGen Sheet.Trims v.sheet (edited.toOption.getD v.sheet) := by
      cases edited with
      | error => exact .refl
      | ok s => exact .single (hedit s rfl)
    refine hgetD fun s hs => ?_
    split at hs
    · exact .detach hs
    · exact .remove hs

theorem walk_of_trims_busySheet :
    ∃ t, parse busySheet false = .ok t ∧ (Sheet.ofTree t).below root = [1, 2, 3, 4, 5, 6] ∧
      ((Sheet.ofTree t).walk 13 .all pruning ()).1 = some .proceed ∧
      ((Sheet.ofTree t).walk 13 .all pruning.noting ((), [])).2.memory.2 = [1, 3, 5] ∧
      (((Sheet.ofTree t).turns 13 .all pruning ()).map Turn.child) = [1, 3, 5, 6] ∧
      ([1, 3, 5, 6] : List Handle).Sublist ((Sheet.ofTree t).below root) := by
  have hrun : (parse busySheet false).toOption.any (fun t =>
      let s := Sheet.ofTree t
      s.below root == [1, 2, 3, 4, 5, 6] && decide (2 * (s.below root).length + 1 ≤ 13) &&
        (s.walk 13 .all pruning.noting ((), [])).2.memory.2 == [1, 3, 5] &&
          (s.turns 13 .all pruning ()).map Turn.child == [1, 3, 5, 6]) = true := by
    decide +kernel
  obtain ⟨t, ht, hrun⟩ := exists_ok_of_any hrun
  obtain ⟨hrun, hlog⟩ := Bool.and_eq_true_iff.mp hrun
  obtain ⟨hrun, hvisited⟩ := Bool.and_eq_true_iff.mp hrun
  obtain ⟨hbelow, hturns⟩ := Bool.and_eq_true_iff.mp hrun
  obtain ⟨hend, -, -, -, hsublist, -⟩ := walk_of_trims (wellFormed_of_parse ht) pruning_trims
    (of_decide_eq_true hturns) .all () rfl rfl
  rw [beq_iff_eq.mp hlog] at hsublist
  exact ⟨t, ht, beq_iff_eq.mp hbelow, hend, beq_iff_eq.mp hvisited, beq_iff_eq.mp hlog, hsublist⟩

end Sheet

end LosslessCss
