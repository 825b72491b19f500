import LosslessCss.Proofs.Walks

/-!
# The turns of a walk

A visitor may edit the sheet at every visit, so the frames of a walk go stale: a child that waits
may have left its container, and a container may have got children that nobody waits for.  What can
be said of every walk, whatever its visitor does, is said of its turns.  Each child that waits in a
frame has one turn, and a frame is the child list that its container had when the walk entered it.
So a turn goes back to a listing (`Sheet.exists_listed`), and in a walk that comes to its end each
listing goes on to turns (`Sheet.exists_turn_of_enters`).

Nothing else decides which nodes of a visitor's own making a walk shows.  A node that is put into a
container before the walk enters it is listed there, so it is shown like any other node
(`Sheet.shown_created_iff`), and this includes a node that is put into the node being visited.  A
visitor that does so each time keeps the walk going for ever (`Sheet.walkFrames_nesting`).

## Main Definitions

* `Turn`, `Turn.IsShown`, `Turn.Enters` : a turn, and what comes of it
* `Sheet.turn`, `Sheet.turns` : the turns of a walk in order

## Main Statements

* `Sheet.walkFrames_cons` : a walk goes on from turn to turn
* `Sheet.walkFrames_noting` : what the visitor sees are the turns that are shown
* `Sheet.exists_listed`, `Sheet.exists_turn_of_enters` : turns and listings
* `Sheet.shown_created_iff` : when a walk shows a node that was made meanwhile
-/

namespace LosslessCss

open Relation (TransGen)

/-- **A turn of a walk**: the child that has it, the container in whose frame it waited, and what
was before the turn and behind it. -/
structure Turn (σ : Type) where
  parent : Handle
  child : Handle
  before : Visit σ
  after : Visit σ

namespace Turn

variable {σ : Type}

/-- The child is shown to the visitor: it still stands in its place, and the walker selects it. -/
def IsShown (w : Walker) (t : Turn σ) : Prop :=
  t.before.sheet.parent? t.child = some t.parent ∧ t.before.sheet.selects w t.child = true

instance (w : Walker) (t : Turn σ) : Decidable (t.IsShown w) := by
  unfold IsShown
  infer_instance

/-- **The walk enters the child** behind its turn: it stands in its place and is a container. -/
def Enters (t : Turn σ) : Prop :=
  t.after.sheet.parent? t.child = some t.parent ∧
    (t.after.sheet.node? t.child).any (·.content.isContainer) = true

instance (t : Turn σ) : Decidable t.Enters := by
  unfold Enters
  infer_instance

/-- The nodes that are shown in a run of turns. -/
def shown (w : Walker) (turns : List (Turn σ)) : List Handle :=
  (turns.filter fun t => decide (t.IsShown w)).map child

theorem shown_cons_of_pos {w : Walker} {t : Turn σ} (ht : t.IsShown w) (turns : List (Turn σ)) :
    shown w (t :: turns) = t.child :: shown w turns := by
  simp [shown, ht]

theorem shown_cons_of_neg {w : Walker} {t : Turn σ} (ht : ¬ t.IsShown w) (turns : List (Turn σ)) :
    shown w (t :: turns) = shown w turns := by
  simp [shown, ht]

theorem shown_cons (w : Walker) (t : Turn σ) (turns : List (Turn σ)) :
    shown w (t :: turns) = shown w [t] ++ shown w turns := by
  simp only [shown, ← List.map_append, ← List.filter_append, List.singleton_append]

theorem mem_shown_iff {w : Walker} {turns : List (Turn σ)} {h : Handle} :
    h ∈ shown w turns ↔ ∃ t ∈ turns, t.IsShown w ∧ t.child = h := by
  simp [shown, and_assoc]

end Turn

namespace Sheet

variable {σ : Type} {s : Sheet} {h c p : Handle} {w : Walker} {visitor : Visitor σ} {n : Nat}
  {waiting : List Handle} {frames : List Frame} {v : Visit σ}

instance (s : Sheet) (h : Handle) : Decidable (s.IsLive h) := by
  unfold IsLive
  infer_instance

/-! ### From turn to turn -/

/-- What happens in a turn: a child that has left its container is passed over. -/
def turn (w : Walker) (visitor : Visitor σ) (p c : Handle) (v : Visit σ) : Verdict × Visit σ :=
  if v.sheet.parent? c = some p then offer w visitor c v else (.proceed, v)

/-- The turns from the innermost frame outwards, at most the given number. -/
def turnsFrames (w : Walker) (visitor : Visitor σ) : Nat → List Frame → Visit σ → List (Turn σ)
  | _, [], _ => []
  | 0, _ :: _, _ => []
  | n + 1, ⟨_, []⟩ :: frames, v => turnsFrames w visitor n frames v
  | n + 1, ⟨p, c :: waiting⟩ :: frames, v =>
    match turn w visitor p c v with
    | (.stop, v') => [⟨p, c, v, v'⟩]
    | (.proceed, v') =>
      ⟨p, c, v, v'⟩ :: turnsFrames w visitor n (v'.sheet.descend p c (⟨p, waiting⟩ :: frames)) v'

/-- **The turns of a walk** in order. -/
def turns (s : Sheet) (n : Nat) (w : Walker) (visitor : Visitor σ) (memory : σ) : List (Turn σ) :=
  turnsFrames w visitor n [s.enter root] ⟨s, memory⟩

/-- **A walk goes on from turn to turn.** -/
theorem walkFrames_cons : walkFrames w visitor (n + 1) (⟨p, c :: waiting⟩ :: frames) v =
    match turn w visitor p c v with
    | (.stop, v') => (some .stop, v')
    | (.proceed, v') =>
      walkFrames w visitor n (v'.sheet.descend p c (⟨p, waiting⟩ :: frames)) v' := by
  rw [walkFrames, turn]
  by_cases hc : v.sheet.parent? c = some p
  · rewrite [if_neg (not_not.mpr hc), if_pos hc]
    rfl
  · -- What has left its container is not entered either.
    rw [if_pos hc, if_neg hc]
    dsimp only
    rw [descend, if_neg fun hstay => hc hstay.1]

theorem turn_of_isShown (hc : v.sheet.parent? c = some p) (hselects : v.sheet.selects w c = true) :
    turn w visitor p c v = visitor c v := by
  rw [turn, if_pos hc]
  exact if_pos hselects

theorem turn_of_not_isShown
    (ht : ¬ (v.sheet.parent? c = some p ∧ v.sheet.selects w c = true)) :
    turn w visitor p c v = (.proceed, v) := by
  rw [turn]
  split
  · next hc => exact if_neg fun hselects => ht ⟨hc, hselects⟩
  · rfl

/-- The frame of a child is new, if there is one. -/
theorem mem_descend_iff {frame : Frame} {t : Turn σ} :
    frame ∈ t.after.sheet.descend t.parent t.child frames ↔
      (t.Enters ∧ frame = t.after.sheet.enter t.child) ∨ frame ∈ frames := by
  rw [descend]
  split
  · next hstay =>
    have henters : t.Enters := hstay
    simp [henters]
  · next hstay =>
    have henters : ¬ t.Enters := hstay
    simp [henters]

/-- **A walk keeps what each visit keeps**, from turn to turn and to its end. -/
theorem turnsFrames_invariant {good : Visit σ → Prop}
    (hvisit : ∀ h v, good v → good (visitor h v).2) (hv : good v) :
    ∀ t ∈ turnsFrames w visitor n frames v, good t.before ∧ good t.after := by
  have hturn {p c : Handle} {v : Visit σ} (hv : good v) : good (turn w visitor p c v).2 := by
    by_cases ht : v.sheet.parent? c = some p ∧ v.sheet.selects w c = true
    · rw [turn_of_isShown ht.1 ht.2]
      exact hvisit c v hv
    · rw [turn_of_not_isShown ht]
      exact hv
  fun_induction turnsFrames w visitor n frames v with
  | case1 | case2 => simp
  | case3 n p frames v ih => exact ih hv
  | case4 n p c waiting frames v v' hstop =>
    have hv' := @hturn p c v hv
    rw [hstop] at hv'
    intro t ht
    obtain rfl := List.mem_singleton.mp ht
    exact ⟨hv, hv'⟩
  | case5 n p c waiting frames v v' hproceed ih =>
    have hv' := @hturn p c v hv
    rw [hproceed] at hv'
    intro t ht
    rcases List.mem_cons.mp ht with rfl | ht
    · exact ⟨hv, hv'⟩
    · exact ih hv' t ht

/-! ### What the visitor sees -/

/-- A visitor that notes what it sees notes a child that is shown. -/
theorem turn_noting (seen : List Handle) :
    turn w visitor.noting p c ⟨v.sheet, (v.memory, seen)⟩ =
      ((turn w visitor p c v).1, ⟨(turn w visitor p c v).2.sheet,
        ((turn w visitor p c v).2.memory,
          seen ++ Turn.shown w [⟨p, c, v, (turn w visitor p c v).2⟩])⟩) := by
  by_cases ht : v.sheet.parent? c = some p ∧ v.sheet.selects w c = true
  · have hshown : (⟨p, c, v, (turn w visitor p c v).2⟩ : Turn σ).IsShown w := ht
    rw [Turn.shown_cons_of_pos hshown, turn_of_isShown ht.1 ht.2]
    exact turn_of_isShown (v := ⟨v.sheet, (v.memory, seen)⟩) ht.1 ht.2
  · have hshown : ¬ (⟨p, c, v, (turn w visitor p c v).2⟩ : Turn σ).IsShown w := ht
    rw [Turn.shown_cons_of_neg hshown, turn_of_not_isShown ht, Turn.shown, List.filter_nil,
      List.map_nil, List.append_nil]
    exact turn_of_not_isShown (v := ⟨v.sheet, (v.memory, seen)⟩) ht

/-- **What the visitor sees are the turns that are shown.** -/
theorem walkFrames_noting (seen : List Handle) :
    walkFrames w visitor.noting n frames ⟨v.sheet, (v.memory, seen)⟩ =
      ((walkFrames w visitor n frames v).1, ⟨(walkFrames w visitor n frames v).2.sheet,
        ((walkFrames w visitor n frames v).2.memory,
          seen ++ Turn.shown w (turnsFrames w visitor n frames v))⟩) := by
  fun_induction turnsFrames w visitor n frames v generalizing seen with
  | case1 n v => simp [walkFrames_nil, Turn.shown]
  | case2 frame frames v => simp [walkFrames, Turn.shown]
  | case3 n p frames v ih => exact ih seen
  | case4 n p c waiting frames v v' hstop =>
    rw [walkFrames_cons, walkFrames_cons, turn_noting, hstop]
  | case5 n p c waiting frames v v' hproceed ih =>
    rw [walkFrames_cons, walkFrames_cons, turn_noting, hproceed]
    dsimp only
    rw [ih, List.append_assoc, ← Turn.shown_cons]

/-! ### Turns and listings -/

/-- **A turn goes back to a listing**: the child waited in a frame from the start, or it was in the
child list of the container when the walk entered that. -/
theorem exists_listed {front back : List (Turn σ)} {t : Turn σ}
    (hlog : turnsFrames w visitor n frames v = front ++ t :: back) :
    (∃ frame ∈ frames, frame.container = t.parent ∧ t.child ∈ frame.waiting) ∨
      ∃ u ∈ front, u.child = t.parent ∧ u.Enters ∧ t.child ∈ u.after.sheet.children u.child := by
  fun_induction turnsFrames w visitor n frames v generalizing front with
  | case1 | case2 => simp at hlog
  | case3 n p frames v ih =>
    rcases ih hlog with ⟨frame, hframe, hlisted⟩ | hentered
    · exact .inl ⟨frame, List.mem_cons_of_mem _ hframe, hlisted⟩
    · exact .inr hentered
  | case4 n p c waiting frames v v' hstop =>
    obtain ⟨rfl, rfl, rfl⟩ : front = [] ∧ t = ⟨p, c, v, v'⟩ ∧ back = [] := by
      cases front with
      | nil => simpa [eq_comm] using hlog
      | cons => simp at hlog
    exact .inl ⟨_, List.mem_cons_self, rfl, List.mem_cons_self⟩
  | case5 n p c waiting frames v v' hproceed ih =>
    cases front with
    | nil =>
      obtain ⟨rfl, -⟩ := List.cons_eq_cons.mp hlog
      exact .inl ⟨_, List.mem_cons_self, rfl, List.mem_cons_self⟩
    | cons u front =>
      obtain ⟨rfl, hrest⟩ := List.cons_eq_cons.mp hlog
      rcases ih hrest with ⟨frame, hframe, hcontainer, hlisted⟩ | ⟨u, hu, hentered⟩
      · -- The frame is the new one, or it waited before with one child more.
        rcases (mem_descend_iff (t := ⟨p, c, v, v'⟩)).mp hframe with ⟨henters, rfl⟩ | hframe
        · exact .inr ⟨_, List.mem_cons_self, hcontainer, henters, hlisted⟩
        · rcases List.mem_cons.mp hframe with rfl | hframe
          · exact .inl ⟨_, List.mem_cons_self, hcontainer, List.mem_cons_of_mem _ hlisted⟩
          · exact .inl ⟨frame, List.mem_cons_of_mem _ hframe, hcontainer, hlisted⟩
      · exact .inr ⟨u, List.mem_cons_of_mem _ hu, hentered⟩

/-- In a walk that comes to its end each child that waits has its turn. -/
theorem exists_turn_of_waiting (hend : (walkFrames w visitor n frames v).1 = some .proceed)
    {frame : Frame} (hframe : frame ∈ frames) (hc : c ∈ frame.waiting) :
    ∃ t ∈ turnsFrames w visitor n frames v, t.parent = frame.container ∧ t.child = c := by
  fun_induction turnsFrames w visitor n frames v generalizing frame with
  | case1 => cases hframe
  | case2 frame' frames v =>
    rw [walkFrames] at hend
    cases hend
  | case3 n p frames v ih =>
    rcases List.mem_cons.mp hframe with rfl | hframe
    · cases hc
    · exact ih hend hframe hc
  | case4 n p k waiting frames v v' hstop =>
    rw [walkFrames_cons, hstop] at hend
    cases hend
  | case5 n p k waiting frames v v' hproceed ih =>
    rw [walkFrames_cons, hproceed] at hend
    have hrest {frame : Frame} (hframe : frame ∈ (⟨p, waiting⟩ :: frames : List Frame))
        (hc : c ∈ frame.waiting) :=
      ih hend ((mem_descend_iff (t := ⟨p, k, v, v'⟩)).mpr (.inr hframe)) hc
    rcases List.mem_cons.mp hframe with rfl | hframe
    · rcases List.mem_cons.mp hc with rfl | hc
      · exact ⟨_, List.mem_cons_self, rfl, rfl⟩
      · obtain ⟨t, ht, hchild⟩ := hrest List.mem_cons_self hc
        exact ⟨t, List.mem_cons_of_mem _ ht, hchild⟩
    · obtain ⟨t, ht, hchild⟩ := hrest (List.mem_cons_of_mem _ hframe) hc
      exact ⟨t, List.mem_cons_of_mem _ ht, hchild⟩

/-- **A listing goes on to turns** in a walk that comes to its end. -/
theorem exists_turn_of_enters (hend : (walkFrames w visitor n frames v).1 = some .proceed)
    {front back : List (Turn σ)} {u : Turn σ}
    (hlog : turnsFrames w visitor n frames v = front ++ u :: back) (henters : u.Enters)
    (hc : c ∈ u.after.sheet.children u.child) :
    ∃ t ∈ back, t.parent = u.child ∧ t.child = c := by
  fun_induction turnsFrames w visitor n frames v generalizing front with
  | case1 | case2 => simp at hlog
  | case3 n p frames v ih => exact ih hend hlog
  | case4 n p k waiting frames v v' hstop =>
    rw [walkFrames_cons, hstop] at hend
    cases hend
  | case5 n p k waiting frames v v' hproceed ih =>
    rw [walkFrames_cons, hproceed] at hend
    cases front with
    | nil =>
      obtain ⟨rfl, rfl⟩ := List.cons_eq_cons.mp hlog
      exact exists_turn_of_waiting hend (mem_descend_iff.mpr (.inl ⟨henters, rfl⟩)) hc
    | cons t front =>
      obtain ⟨rfl, hrest⟩ := List.cons_eq_cons.mp hlog
      exact ih hend hrest

/-! ### Nodes that are made meanwhile -/

/-- The walk of a visitor that notes what it sees is the walk of the visitor, and what is noted are
the turns that are shown. -/
theorem walk_noting (s : Sheet) (n : Nat) (w : Walker) (visitor : Visitor σ) (memory : σ) :
    s.walk n w visitor.noting (memory, []) =
      ((s.walk n w visitor memory).1, ⟨(s.walk n w visitor memory).2.sheet,
        ((s.walk n w visitor memory).2.memory, Turn.shown w (s.turns n w visitor memory))⟩) :=
  walkFrames_noting (v := ⟨s, memory⟩) []

/-- A node that was not there when the walk began has a turn only in a container that the walk
entered when the node stood in it already. -/
theorem exists_enters_of_created (hs : s.WellFormed) {memory : σ} {front back : List (Turn σ)}
    {t : Turn σ} (hlog : s.turns n w visitor memory = front ++ t :: back)
    (hnew : ¬ s.IsLive t.child) :
    ∃ u ∈ front, u.child = t.parent ∧ u.Enters ∧ t.child ∈ u.after.sheet.children u.child := by
  refine (exists_listed hlog).resolve_left ?_
  rintro ⟨frame, hframe, -, hwaits⟩
  -- The children of the root were listed before the walk began.
  obtain rfl := List.mem_singleton.mp hframe
  exact hnew (isLive_child_of_mem hs.nodup hwaits)

/-- **What a walk shows of nodes that are made meanwhile.**  Such a node has a turn only in a
container that the walk entered when the node stood in it already, and there it has one if the walk
comes to its end.  So a walk shows none of these nodes exactly if each of them that stands in a
container when the walk enters that is gone when its turn comes, or is not selected. -/
theorem shown_created_iff (hs : s.WellFormed) (n : Nat) (w : Walker) (visitor : Visitor σ)
    (memory : σ) :
    (s.walk n w visitor.noting (memory, [])).2.memory.2 =
        Turn.shown w (s.turns n w visitor memory) ∧
      (∀ front t back, s.turns n w visitor memory = front ++ t :: back → ¬ s.IsLive t.child →
        ∃ u ∈ front, u.child = t.parent ∧ u.Enters ∧ t.child ∈ u.after.sheet.children u.child) ∧
      ((s.walk n w visitor memory).1 = some .proceed →
        ∀ front u back, s.turns n w visitor memory = front ++ u :: back → u.Enters →
          ∀ h ∈ u.after.sheet.children u.child, ∃ t ∈ back, t.parent = u.child ∧ t.child = h) ∧
      ((∀ h ∈ (s.walk n w visitor.noting (memory, [])).2.memory.2, s.IsLive h) ↔
        ∀ u ∈ s.turns n w visitor memory, u.Enters →
          ∀ h ∈ u.after.sheet.children u.child, ¬ s.IsLive h →
            ∀ t ∈ s.turns n w visitor memory, t.parent = u.child → t.child = h → ¬ t.IsShown w) := by
  rw [walk_noting]
  refine ⟨rfl, fun front t back => exists_enters_of_created hs,
    fun hend front u back hlog henters h => exists_turn_of_enters hend hlog henters, ?_⟩
  constructor
  · rintro hold u - - h - hnew t ht - rfl hshown
    exact hnew (hold _ (Turn.mem_shown_iff.mpr ⟨t, ht, hshown, rfl⟩))
  · intro hnone h hh
    obtain ⟨t, ht, hshown, rfl⟩ := Turn.mem_shown_iff.mp hh
    by_contra hnew
    obtain ⟨front, back, hlog⟩ := List.append_of_mem ht
    obtain ⟨u, hu, hchild, henters, hmem⟩ := exists_enters_of_created hs hlog hnew
    have hin : u ∈ s.turns n w visitor memory := hlog ▸ List.mem_append_left _ hu
    exact hnone u hin henters _ hmem hnew t ht hchild.symm rfl hshown

/-- A visitor that puts a new declaration behind each rule and each declaration that it sees. -/
def following : Visitor Unit := fun h v =>
  let (new, s) := v.sheet.create (.declaration "x" "y" false)
  (.proceed, { v with sheet := (s.insertAfter h new).toOption.getD s })

theorem shown_created_iff_busySheet :
    ∃ t, parse busySheet false = .ok t ∧
      ((Sheet.ofTree t).walk 20 .declarations following.noting ((), [])).2.memory.2 = [2, 4] ∧
      ((Sheet.ofTree t).walk 20 .declarations following.noting ((), [])).2.sheet.children 1 =
        [2, 7, 3] ∧
      ∀ h ∈ ((Sheet.ofTree t).walk 20 .declarations following.noting ((), [])).2.memory.2,
        (Sheet.ofTree t).IsLive h := by
  have hrun : (parse busySheet false).toOption.any (fun t =>
      let s := Sheet.ofTree t
      let noted := s.walk 20 .declarations following.noting ((), [])
      let log := s.turns 20 .declarations following ()
      noted.2.memory.2 == [2, 4] && noted.2.sheet.children 1 == [2, 7, 3] &&
        decide (∀ u ∈ log, u.Enters → ∀ h ∈ u.after.sheet.children u.child, ¬ s.IsLive h →
          ∀ t ∈ log, t.parent = u.child → t.child = h → ¬ t.IsShown .declarations)) = true := by
    decide +kernel
  obtain ⟨t, ht, hrun⟩ := exists_ok_of_any hrun
  obtain ⟨hrun, hnone⟩ := Bool.and_eq_true_iff.mp hrun
  obtain ⟨hshown, hchildren⟩ := Bool.and_eq_true_iff.mp hrun
  exact ⟨t, ht, beq_iff_eq.mp hshown, beq_iff_eq.mp hchildren,
    (shown_created_iff (wellFormed_of_parse ht) 20 .declarations following ()).2.2.2.mpr
      (of_decide_eq_true hnone)⟩

/-! ### A walk without an end -/

/-- A visitor that puts a new rule into each node that it sees. -/
def nesting : Visitor Unit := fun h v =>
  let (new, s) := v.sheet.create (.rule "x")
  (.proceed, { v with sheet := (s.append h new).toOption.getD s })

/-- A container without children, in its place. -/
structure Bare (s : Sheet) (p h : Handle) : Prop where
  parent : s.parent? h = some p
  container : (s.node? h).any (·.content.isContainer) = true
  children : s.children h = []

/-- **A new node** has no children and no parent, and the other nodes stay as they are. -/
theorem read_create (hs : s.WellFormed) (content : Content) (hcontent : content ≠ .root) :
    (s.create content).2.node? s.fresh = some { content := content } ∧
      (s.create content).2.children s.fresh = [] ∧
      (∀ k, s.IsLive k → (s.create content).2.node? k = s.node? k ∧
        (s.create content).2.children k = s.children k) ∧
      (s.create content).2.parent? s.fresh = none := by
  have hs' := hs.create hcontent
  have hrows : (s.create content).2.trees.rows =
      s.trees.rows ++ [⟨s.fresh, { content := content }, []⟩] := by
    simp [create, Forest.rows, Tree.row]
  have hnew := (mem_rows_iff hs'.nodup).mp (hrows ▸ List.mem_append_right _ List.mem_cons_self)
  refine ⟨hnew.1, hnew.2, fun k hk => ?_, hs'.parent?_of_mem_topHandles ?_⟩
  · obtain ⟨n, hn⟩ := hk.exists_node?
    have hold := (mem_rows_iff hs'.nodup).mp
      (hrows ▸ List.mem_append_left _ (row_mem hs.nodup hn))
    exact ⟨hold.1.trans hn.symm, hold.2⟩
  · rw [create, Forest.topHandles_append]
    exact List.mem_append_right _ List.mem_cons_self

/-- A visit puts a new container without children into the one that is visited. -/
theorem exists_nesting (hs : s.WellFormed) (hbare : s.Bare p h) :
    ∃ s', nesting h ⟨s, ()⟩ = (.proceed, ⟨s', ()⟩) ∧ s'.WellFormed ∧
      s'.parent? h = some p ∧ (s'.node? h).any (·.content.isContainer) = true ∧
        s'.children h = [s.fresh] ∧ s'.Bare h s.fresh := by
  obtain ⟨n, hn, hcontainer⟩ := Option.any_eq_true _ _ |>.mp hbare.container
  have hlive : s.IsLive h := isLive_of_node? hn
  have hne : s.fresh ≠ h := (hs.fresh h (isLive_iff.mp hlive)).ne'
  have hp : s.IsLive p := (hs.isLive_of_isParent hbare.parent).1
  have hs₁ : (s.create (.rule "x")).2.WellFormed := hs.create nofun
  obtain ⟨hnode, hnone, hold, htop⟩ := read_create hs (.rule "x") nofun
  -- Nothing stands inside of the new node, so it can be put into the other one.
  have hfits : (s.create (.rule "x")).2.Fits s.fresh h := by
    refine ⟨⟨(hs.fresh root (isLive_iff.mp hs.isLive_root)).ne', isLive_of_node? hnode⟩,
      ⟨n, (hold h hlive).1.trans hn, hcontainer⟩, fun hline => ?_⟩
    obtain ⟨c, hc, -⟩ := TransGen.head'_iff.mp
      ((Relation.reflTransGen_iff_eq_or_transGen.mp hline).resolve_left hne.symm)
    rw [hs₁.isParent_iff, hnone] at hc
    cases hc
  obtain ⟨s', hmove, hmoves, hs'⟩ := exists_move_into hs₁ (.inl rfl) hfits
  have hstay {k : Handle} (hk : k ≠ h) :
      s'.children k = (s.create (.rule "x")).2.children k :=
    hmoves.others k hk (by rw [htop]; nofun)
  refine ⟨s', ?_, hs', ?_, ?_, ?_, ⟨hmoves.parent, ?_, ?_⟩⟩
  · have happend : (s.create (.rule "x")).2.append h s.fresh = .ok s' := hmove
    simp only [nesting]
    rw [show (s.create (.rule "x")).1 = s.fresh from rfl, happend]
    rfl
  · have hne' : p ≠ h := by
      rintro rfl
      exact hs.acyclic p (.single hbare.parent)
    rw [hs'.parent?_eq_some_iff, hstay hne', (hold p hp).2]
    exact hs.parent?_eq_some_iff.mp hbare.parent
  · rw [hmoves.node h, if_pos (.inl rfl), (hold h hlive).1, hn]
    exact (giveBody_isContainer n).trans hcontainer
  · have htarget := hmoves.target
    rw [(hold h hlive).2, hbare.children] at htarget
    exact htarget
  · rw [hmoves.node, if_neg (by simp [hne.symm]), hnode]
    rfl
  · rw [hstay hne, hnone]

/-- **A visitor that puts a new node into each node that it sees keeps the walk going** for ever. -/
theorem walkFrames_nesting (hs : s.WellFormed) (hbare : s.Bare p h) (n : Nat)
    (frames : List Frame) : (walkFrames .all nesting n (⟨p, [h]⟩ :: frames) ⟨s, ()⟩).1 = none := by
  -- In each turn the frame of the node that was visited has a new node in it.
  induction n generalizing s p h frames with
  | zero => rfl
  | succ n ih =>
    obtain ⟨s', hvisit, hs', hparent, hcontainer, hchildren, hbare'⟩ := exists_nesting hs hbare
    have hselects : (⟨s, ()⟩ : Visit Unit).sheet.selects .all h = true := by
      obtain ⟨m, hm, -⟩ := Option.any_eq_true _ _ |>.mp hbare.container
      rw [selects, hm]
      rfl
    rw [walkFrames_cons, turn_of_isShown hbare.parent hselects, hvisit]
    dsimp only
    rw [descend, if_pos ⟨hparent, hcontainer⟩, enter, hchildren]
    exact ih hs' hbare' _

/-- One rule with nothing in it. -/
def emptyRule : Source where
  text := "a\x7b\x7d"

/-- **Walks show nodes that are made meanwhile**, and some do not end for that reason. -/
theorem exists_shown_created :
    ∃ t, parse emptyRule false = .ok t ∧ ¬ (Sheet.ofTree t).IsLive 2 ∧
      ((Sheet.ofTree t).walk 3 .all nesting.noting ((), [])).2.memory.2 = [1, 2, 3] ∧
      ∀ n, ((Sheet.ofTree t).walk n .all nesting ()).1 = none := by
  have hrun : (parse emptyRule false).toOption.any (fun t =>
      let s := Sheet.ofTree t
      decide (¬ s.IsLive 2) && s.children root == [1] &&
        (s.walk 3 .all nesting.noting ((), [])).2.memory.2 == [1, 2, 3] &&
          decide (s.parent? 1 = some root) && (s.node? 1).any (·.content.isContainer) &&
            s.children 1 == []) = true := by
    decide +kernel
  obtain ⟨t, ht, hrun⟩ := exists_ok_of_any hrun
  obtain ⟨hrun, hchildren⟩ := Bool.and_eq_true_iff.mp hrun
  obtain ⟨hrun, hcontainer⟩ := Bool.and_eq_true_iff.mp hrun
  obtain ⟨hrun, hparent⟩ := Bool.and_eq_true_iff.mp hrun
  obtain ⟨hrun, hshown⟩ := Bool.and_eq_true_iff.mp hrun
  obtain ⟨hnew, hroot⟩ := Bool.and_eq_true_iff.mp hrun
  have hbare : (Sheet.ofTree t).Bare root 1 :=
    ⟨of_decide_eq_true hparent, hcontainer, beq_iff_eq.mp hchildren⟩
  refine ⟨t, ht, of_decide_eq_true hnew, beq_iff_eq.mp hshown, fun n => ?_⟩
  rw [walk, enter, beq_iff_eq.mp hroot]
  exact walkFrames_nesting (wellFormed_of_parse ht) hbare n []

end Sheet

end LosslessCss
