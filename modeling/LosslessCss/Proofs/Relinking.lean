import LosslessCss.Proofs.Kinship
import LosslessCss.Proofs.EditedSheets

/-!
# What a structural edit does

An edit takes the handle of a node out of one child list and puts it into one.  On rows this is all
there is: each row stays but for its child list, and but for the body of the container that is named
(`Sheet.Maps`).  So what an edit does to the answers of a sheet is read off its rows, and a sheet
stays well-formed because its rows stay proper.

Before that the edit is checked.  Its conditions are said here without the checks that decide them
(`Edit.Allowed`), and so is the first of them that fails (`Edit.Refused`).  Either the edit is
allowed or it is refused, so it is enough to see what happens in the two cases.

## Main Definitions

* `Sheet.Movable`, `Sheet.Fits`, `Edit.Allowed` : the conditions of an edit
* `Sheet.Immovable`, `Sheet.Misfit`, `Edit.Refused` : the first condition that fails
* `Sheet.Admits` : a node that fits, and a place for it other than next to itself
* `Sheet.Moves`, `Sheet.Unlinks`, `Sheet.Drops`, `Edit.Does` : the effect of an edit

## Main Statements

* `Sheet.encloses_iff` : looking upwards from the container is superfluous for a leaf
* `Sheet.maps_moved`, `Sheet.maps_unlinked` : an edit changes each row on its own
* `Edit.apply_of_refused`, `Edit.exists_apply_of_allowed` : the two cases
* `Edit.wellFormed_apply` : edits keep a sheet well-formed
-/

namespace LosslessCss

open Relation (ReflTransGen TransGen)

namespace Sheet

variable {s s' : Sheet} {h k p : Handle} {t : Tree Entry} {place : Place} {e : EditError}

/-! ### Conditions -/

/-- A node that can be taken out of its place. -/
structure Movable (s : Sheet) (h : Handle) : Prop where
  ne_root : h ≠ Sheet.root
  live : s.IsLive h

/-- **A node that can be put into a container.** -/
structure Fits (s : Sheet) (h p : Handle) : Prop extends Movable s h where
  container : ∃ n, s.node? p = some n ∧ n.content.isContainer = true
  /-- The container is neither the node nor below it. -/
  apart : ¬ ReflTransGen s.IsParent h p

/-- Why a node cannot be taken out of its place: the first reason. -/
inductive Immovable (s : Sheet) (h : Handle) : EditError → Prop
  | rootNode (hroot : h = Sheet.root) : Immovable s h .rootNode
  | removed (hroot : h ≠ Sheet.root) (hdead : ¬ s.IsLive h) : Immovable s h (.removed h)

/-- **Why a node cannot be put into a container**: the first reason. -/
inductive Misfit (s : Sheet) (h p : Handle) : EditError → Prop
  | immovable {e : EditError} (he : s.Immovable h e) : Misfit s h p e
  | removed (hh : s.Movable h) (hdead : ¬ s.IsLive p) : Misfit s h p (.removed p)
  | notAContainer {n : Node} (hh : s.Movable h) (hn : s.node? p = some n)
      (hleaf : n.content.isContainer = false) : Misfit s h p (.notAContainer p)
  | cycle {n : Node} (hh : s.Movable h) (hn : s.node? p = some n)
      (hcontainer : n.content.isContainer = true) (hbelow : ReflTransGen s.IsParent h p) :
      Misfit s h p (.cycle h)

theorem checkMovable_of_movable (hh : s.Movable h) :
    ∃ t, s.find? h = some t ∧ s.checkMovable h = .ok t := by
  obtain ⟨t, ht⟩ := hh.live.exists_find?
  refine ⟨t, ht, ?_⟩
  rw [checkMovable, if_neg hh.ne_root, ht]

theorem checkMovable_of_immovable (he : s.Immovable h e) : s.checkMovable h = .error e := by
  cases he with
  | rootNode hroot => rw [checkMovable, if_pos hroot]
  | removed hroot hdead =>
    rw [checkMovable, if_neg hroot, find?_of_not_isLive hdead]

theorem movable_or (s : Sheet) (h : Handle) : s.Movable h ∨ ∃ e, s.Immovable h e := by
  by_cases hroot : h = Sheet.root
  · exact .inr ⟨_, .rootNode hroot⟩
  · by_cases hlive : s.IsLive h
    · exact .inl ⟨hroot, hlive⟩
    · exact .inr ⟨_, .removed hroot hlive⟩

/-- **A leaf encloses nothing but itself**, so the shortcut for leaves gives the answer of the way
upwards. -/
theorem encloses_iff (hs : s.WellFormed) (ht : s.find? h = some t) (hp : s.IsLive p) :
    s.encloses t p = true ↔ ReflTransGen s.IsParent h p := by
  have hself : t.value.handle = h := Forest.handle_of_find? ht
  rw [encloses, hself]
  split
  · next hleaf =>
    have hhandles : t.handles = [h] := by
      have hnil : t.children = .nil := by
        cases hchildren : t.children with
        | nil => rfl
        | cons => simp [hchildren, Forest.isEmpty] at hleaf
      rw [Tree.handles, hself, hnil]
      rfl
    rw [beq_iff_eq, ← hs.mem_handles_iff ht hp, hhandles, List.mem_singleton]
  · rw [List.contains_iff_mem, hs.mem_ancestry_iff hp]

theorem checkInsertion_of_fits (hs : s.WellFormed) (hh : s.Fits h p) :
    ∃ t, s.find? h = some t ∧ s.checkInsertion p h = .ok t := by
  obtain ⟨t, ht, hmovable⟩ := checkMovable_of_movable hh.toMovable
  obtain ⟨n, hn, hcontainer⟩ := hh.container
  have hp : s.IsLive p := isLive_of_node? hn
  have hapart : s.encloses t p = false :=
    Bool.eq_false_iff.mpr fun hin => hh.apart ((encloses_iff hs ht hp).mp hin)
  refine ⟨t, ht, ?_⟩
  rw [checkInsertion, hmovable]
  simp [bind, Except.bind, pure, Except.pure, hn, hcontainer, hapart]

theorem checkInsertion_of_misfit (hs : s.WellFormed) (he : s.Misfit h p e) :
    s.checkInsertion p h = .error e := by
  rw [checkInsertion]
  cases he with
  | immovable he =>
    rw [checkMovable_of_immovable he]
    rfl
  | removed hh hdead =>
    obtain ⟨t, -, hmovable⟩ := checkMovable_of_movable hh
    have hnone : s.node? p = none := node?_of_not_isLive hdead
    rw [hmovable]
    simp [bind, Except.bind, throw, throwThe, MonadExceptOf.throw, hnone]
  | notAContainer hh hn hleaf =>
    obtain ⟨t, -, hmovable⟩ := checkMovable_of_movable hh
    rw [hmovable]
    simp [bind, Except.bind, throw, throwThe, MonadExceptOf.throw, hn, hleaf]
  | cycle hh hn hcontainer hbelow =>
    obtain ⟨t, ht, hmovable⟩ := checkMovable_of_movable hh
    have hp : s.IsLive p := isLive_of_node? hn
    have henclosed := (encloses_iff hs ht hp).mpr hbelow
    rw [hmovable]
    simp [bind, Except.bind, throw, throwThe, MonadExceptOf.throw, hn, hcontainer, henclosed]

theorem fits_or (s : Sheet) (h p : Handle) : s.Fits h p ∨ ∃ e, s.Misfit h p e := by
  rcases s.movable_or h with hh | ⟨e, he⟩
  · cases hn : s.node? p with
    | none =>
      refine .inr ⟨_, .removed hh fun hlive => ?_⟩
      rw [IsLive, hn] at hlive
      cases hlive
    | some n =>
      cases hcontainer : n.content.isContainer with
      | false => exact .inr ⟨_, .notAContainer hh hn hcontainer⟩
      | true =>
        by_cases hbelow : ReflTransGen s.IsParent h p
        · exact .inr ⟨_, .cycle hh hn hcontainer hbelow⟩
        · exact .inl ⟨hh, ⟨n, hn, hcontainer⟩, hbelow⟩
  · exact .inr ⟨e, .immovable he⟩

/-! ### Rows changed one by one -/

/-- **Each row of a sheet is changed on its own**, under the same handle. -/
structure Maps (s s' : Sheet) (g : Row → Row) : Prop where
  handle : ∀ r, (g r).handle = r.handle
  rows : List.Perm s'.trees.rows (s.trees.rows.map g)

namespace Maps

variable {g : Row → Row}

theorem handles (m : s.Maps s' g) : List.Perm s'.trees.handles s.trees.handles := by
  rw [← Forest.map_handle_rows, ← Forest.map_handle_rows]
  refine (m.rows.map Row.handle).trans ?_
  rw [List.map_map]
  exact .of_eq (List.map_congr_left fun r _ => m.handle r)

theorem isLive_iff (m : s.Maps s' g) : s'.IsLive k ↔ s.IsLive k := by
  rw [Sheet.isLive_iff, Sheet.isLive_iff, m.handles.mem_iff]

/-- The answers about a node are in the changed row. -/
theorem read (m : s.Maps s' g) (hs : s.WellFormed) {n : Node} (hn : s.node? k = some n) :
    s'.node? k = some (g ⟨k, n, s.children k⟩).node ∧
      s'.children k = (g ⟨k, n, s.children k⟩).children := by
  have hrow : g ⟨k, n, s.children k⟩ ∈ s'.trees.rows :=
    m.rows.mem_iff.mpr (List.mem_map_of_mem (row_mem hs.nodup hn))
  have hread := (mem_rows_iff (m.handles.nodup_iff.mpr hs.nodup)).mp hrow
  rwa [m.handle] at hread

theorem node?_eq (m : s.Maps s' g) (hs : s.WellFormed) (k : Handle) :
    s'.node? k = (s.node? k).map fun n => (g ⟨k, n, s.children k⟩).node := by
  by_cases hk : s.IsLive k
  · obtain ⟨n, hn⟩ := hk.exists_node?
    rw [(m.read hs hn).1, hn]
    rfl
  · rw [node?_of_not_isLive hk, node?_of_not_isLive (mt m.isLive_iff.mp hk)]
    rfl

/-- **Changed rows make a well-formed sheet** if they are proper. -/
theorem wellFormed (m : s.Maps s' g) (hs : s.WellFormed) (hfresh : s'.fresh = s.fresh)
    (hroot : Sheet.root ∈ s'.trees.topHandles)
    (hproper : ∀ r ∈ s.trees.rows, (g r).Proper) : s'.WellFormed where
  nodup := m.handles.nodup_iff.mpr hs.nodup
  fresh h hh := hfresh ▸ hs.fresh h (m.handles.mem_iff.mp hh)
  root := hroot
  proper r hr := by
    obtain ⟨old, hold, rfl⟩ := List.mem_map.mp (m.rows.mem_iff.mp hr)
    exact hproper old hold

end Maps

/-! ### Moving -/

/-- What becomes of a row when a node is moved to a place. -/
def movedRow (place : Place) (h : Handle) (r : Row) : Row :=
  match place with
  | .lastIn parent | .firstIn parent => ((r.without h).receive place h).change parent giveBody
  | .before _ | .after _ => (r.without h).receive place h

theorem change_handle (change : Node → Node) (r : Row) : (r.change h change).handle = r.handle := by
  rw [Row.change]
  split <;> rfl

theorem movedRow_handle (place : Place) (h : Handle) (r : Row) :
    (movedRow place h r).handle = r.handle := by
  cases place with
  | lastIn | firstIn => exact change_handle _ _
  | before | after => rfl

theorem movedRow_children (place : Place) (h : Handle) (r : Row) :
    (movedRow place h r).children = place.among h (some r.handle) (r.children.erase h) := by
  have hchange {q : Handle} {r' : Row} : (r'.change q giveBody).children = r'.children := by
    rw [Row.change]
    split <;> rfl
  cases place with
  | lastIn | firstIn => exact hchange
  | before | after => rfl

/-- Next to a sibling other than the node. -/
theorem moved_of_ne {sibling : Handle} (hplace : place = .before sibling ∨ place = .after sibling)
    (hne : sibling ≠ t.value.handle) :
    s.moved place t = { s with trees := (s.trees.erase t.value.handle).insert place t } := by
  rcases hplace with rfl | rfl <;> exact if_neg hne

/-- **Moving a node** changes each row on its own. -/
theorem maps_moved (hs : s.WellFormed) (ht : s.find? h = some t) (hin : s.IsLive place.anchor)
    (hout : place.anchor ∉ t.handles) : s.Maps (s.moved place t) (movedRow place h) where
  handle := movedRow_handle place h
  rows := by
    have hself : t.value.handle = h := Forest.handle_of_find? ht
    have hne : place.anchor ≠ t.value.handle := fun heq => hout (heq ▸ List.mem_cons_self)
    have hrows := Forest.rows_relink hs.nodup ht (isLive_iff.mp hin) hout
    have hupdate (q : Handle) : List.Perm
        (((s.trees.erase h).insert place t).update q giveBody).rows
        (s.trees.rows.map fun r => ((r.without h).receive place h).change q giveBody) := by
      have hnodup : ((s.trees.erase h).insert place t).handles.Nodup := by
        rw [← Forest.map_handle_rows, (hrows.map Row.handle).nodup_iff, List.map_map]
        have hsame : Row.handle ∘ (fun r => (Row.without h r).receive place h) = Row.handle := rfl
        rw [hsame, Forest.map_handle_rows]
        exact hs.nodup
      rw [Forest.rows_update hnodup]
      refine (hrows.map _).trans (.of_eq ?_)
      rw [List.map_map]
      rfl
    cases place with
    | lastIn parent | firstIn parent => exact hself ▸ hupdate parent
    | before sibling | after sibling =>
      rw [moved_of_ne (by simp [Place.anchor]) hne, hself]
      exact hrows

theorem giveBody_content_eq_root_iff (n : Node) :
    (giveBody n).content = .root ↔ n.content = .root := by
  obtain ⟨content, raws, span⟩ := n
  cases content <;> simp [giveBody]

theorem movedRow_node (place : Place) (h : Handle) (r : Row) :
    (movedRow place h r).node =
      if place = .lastIn r.handle ∨ place = .firstIn r.handle then giveBody r.node else r.node := by
  have hchange (q : Handle) : (((r.without h).receive place h).change q giveBody).node =
      if q = r.handle then giveBody r.node else r.node := by
    rw [Row.change]
    by_cases hq : r.handle = q
    · rw [if_pos (show ((r.without h).receive place h).handle = q from hq), if_pos hq.symm]
      rfl
    · rw [if_neg (show ((r.without h).receive place h).handle ≠ q from hq), if_neg (Ne.symm hq)]
      rfl
  cases place with
  | lastIn parent | firstIn parent => simp [movedRow, hchange]
  | before | after => simp [movedRow, Row.receive, Row.without]

/-- **Rows stay proper** when a node is moved into a container. -/
theorem proper_movedRow {r : Row} (hr : r.Proper)
    (hcontainer : place = .lastIn r.handle ∨ place = .firstIn r.handle →
      r.node.content.isContainer = true) : (movedRow place h r).Proper := by
  rw [← movedRow_handle place h r] at hcontainer
  constructor
  · rw [movedRow_handle, movedRow_node]
    split
    · rw [giveBody_content_eq_root_iff]
      exact hr.root
    · exact hr.root
  · intro hchildren
    rw [movedRow_node]
    split
    · next hnamed =>
      rw [giveBody_content_eq_root_iff]
      by_cases hroot : r.node.content = .root
      · exact .inl hroot
      · rw [movedRow_handle] at hcontainer
        exact .inr (giveBody_opensBlock (hcontainer hnamed) hroot)
    · next hother =>
      -- An empty list gets a child only if its owner is named as the container.
      refine hr.body fun hnil => ?_
      rw [movedRow_children, hnil] at hchildren
      refine hchildren (Place.among_of_not_liesIn fun hin => ?_)
      cases place with
      | lastIn parent => exact hother (.inl (congrArg Place.lastIn (Option.some.inj hin).symm))
      | firstIn parent => exact hother (.inr (congrArg Place.firstIn (Option.some.inj hin).symm))
      | before | after => cases hin

theorem moved_fresh (place : Place) (t : Tree Entry) : (s.moved place t).fresh = s.fresh := by
  cases place with
  | lastIn | firstIn => rfl
  | before sibling | after sibling =>
    rw [moved]
    split <;> rfl

theorem root_mem_moved (hs : s.WellFormed) (ht : s.find? h = some t) (hroot : h ≠ Sheet.root) :
    Sheet.root ∈ (s.moved place t).trees.topHandles := by
  have hself : t.value.handle = h := Forest.handle_of_find? ht
  have hput : Sheet.root ∈ ((s.trees.erase h).insert place t).topHandles := by
    rw [Forest.topHandles_insert, Forest.topHandles_erase]
    exact Place.mem_among ((List.mem_erase_of_ne (Ne.symm hroot)).mpr hs.root)
  cases place with
  | lastIn parent | firstIn parent =>
    change Sheet.root ∈ (Forest.update parent giveBody _).topHandles
    rw [Forest.topHandles_update, hself]
    exact hput
  | before sibling | after sibling =>
    by_cases hne : sibling = t.value.handle
    · rw [moved, if_pos hne]
      exact hs.root
    · rw [moved_of_ne (by simp) hne, hself]
      exact hput

/-- The container of a place is named, or is the parent of the sibling that is named. -/
theorem container_eq_ok_iff : s.container place = .ok p ↔ place = .lastIn p ∨ place = .firstIn p ∨
    ∃ sibling, (place = .before sibling ∨ place = .after sibling) ∧ s.IsParent p sibling := by
  cases place with
  | lastIn parent | firstIn parent => simp [container]
  | before sibling | after sibling =>
    rw [container]
    cases hparent : s.parent? sibling <;> simp [IsParent, hparent]

/-- **A place for a node**: the node fits into the container of the place, and the place does not
refer to the node. -/
structure Admits (s : Sheet) (h p : Handle) (place : Place) : Prop extends s.Fits h p where
  inside : s.container place = .ok p
  ne_anchor : place.anchor ≠ h

namespace Admits

variable (ha : s.Admits h p place)

include ha

theorem isLive_container : s.IsLive p := by
  obtain ⟨n, hn, -⟩ := ha.container
  exact isLive_of_node? hn

theorem isLive_anchor (hs : s.WellFormed) : s.IsLive place.anchor := by
  rcases container_eq_ok_iff.mp ha.inside with rfl | rfl | ⟨sibling, hplace, hsibling⟩
  · exact ha.isLive_container
  · exact ha.isLive_container
  · have hlive := (hs.isLive_of_isParent hsibling).2
    rcases hplace with rfl | rfl <;> exact hlive

/-- What the place refers to is outside of the node. -/
theorem not_below : ¬ ReflTransGen s.IsParent h place.anchor := by
  have hne := ha.ne_anchor
  rcases container_eq_ok_iff.mp ha.inside with rfl | rfl | ⟨sibling, hplace, hsibling⟩
  · exact ha.apart
  · exact ha.apart
  · have hanchor : place.anchor = sibling := by rcases hplace with rfl | rfl <;> rfl
    rw [hanchor] at hne ⊢
    -- A sibling inside of the node would be the node, or have its parent there.
    intro hbelow
    rcases hbelow.cases_tail with rfl | ⟨q, hbelow, hq⟩
    · exact hne rfl
    · exact ha.apart (hq.unique hsibling ▸ hbelow)

theorem anchor_not_mem (hs : s.WellFormed) (ht : s.find? h = some t) :
    place.anchor ∉ t.handles := by
  intro hmem
  exact ha.not_below ((hs.mem_handles_iff ht (ha.isLive_anchor hs)).mp hmem)

/-- The place is in the child list of its container, and in no other. -/
theorem liesIn_iff (hs : s.WellFormed) (k : Handle) :
    place.LiesIn (some k) ((s.children k).erase h) ↔ k = p := by
  have hne := ha.ne_anchor
  rcases container_eq_ok_iff.mp ha.inside with rfl | rfl | ⟨sibling, hplace, hsibling⟩
  · exact Option.some.injEq _ _ ▸ Iff.rfl
  · exact Option.some.injEq _ _ ▸ Iff.rfl
  · have hlies : place.LiesIn (some k) ((s.children k).erase h) ↔
        sibling ∈ (s.children k).erase h := by
      rcases hplace with rfl | rfl <;> exact Iff.rfl
    have hanchor : place.anchor = sibling := by rcases hplace with rfl | rfl <;> rfl
    rw [hlies, List.mem_erase_of_ne (hanchor ▸ hne), ← hs.isParent_iff, IsParent, hsibling,
      Option.some.injEq, eq_comm]

theorem maps (hs : s.WellFormed) (ht : s.find? h = some t) :
    s.Maps (s.moved place t) (movedRow place h) :=
  maps_moved hs ht (ha.isLive_anchor hs) (ha.anchor_not_mem hs ht)

theorem wellFormed_moved (hs : s.WellFormed) (ht : s.find? h = some t) :
    (s.moved place t).WellFormed := by
  refine (ha.maps hs ht).wellFormed hs (moved_fresh place t) (root_mem_moved hs ht ha.ne_root) ?_
  intro r hr
  refine proper_movedRow (hs.proper r hr) fun hnamed => ?_
  -- The row is the one of the container.
  have hcontainer := ha.inside
  obtain rfl : r.handle = p := by
    rcases hnamed with rfl | rfl <;> exact Except.ok.inj hcontainer
  obtain ⟨n, hn, hholds⟩ := ha.container
  obtain rfl := Option.some.inj (((mem_rows_iff hs.nodup).mp hr).1.symm.trans hn)
  exact hholds

theorem children_moved (hs : s.WellFormed) (ht : s.find? h = some t) (k : Handle) :
    (s.moved place t).children k = place.among h (some k) ((s.children k).erase h) := by
  have hmaps := ha.maps hs ht
  by_cases hk : s.IsLive k
  · obtain ⟨n, hn⟩ := hk.exists_node?
    rw [(hmaps.read hs hn).2, movedRow_children]
  · have hne : k ≠ p := by
      rintro rfl
      exact hk (ha.isLive_container)
    rw [Place.among_of_not_liesIn fun hin => hne ((ha.liesIn_iff hs k).mp hin),
      children_of_not_isLive hk, children_of_not_isLive (mt hmaps.isLive_iff.mp hk)]
    rfl

theorem node?_moved (hs : s.WellFormed) (ht : s.find? h = some t) (k : Handle) :
    (s.moved place t).node? k =
      if place = .lastIn k ∨ place = .firstIn k then (s.node? k).map giveBody else s.node? k := by
  rw [(ha.maps hs ht).node?_eq hs]
  simp only [movedRow_node]
  split
  · rfl
  · exact Option.map_id'

/-- The node is found with all that is below it. -/
theorem find?_moved (hs : s.WellFormed) (ht : s.find? h = some t) :
    (s.moved place t).find? h = some t := by
  have hself : t.value.handle = h := Forest.handle_of_find? ht
  have hout := ha.anchor_not_mem hs ht
  have hgone : t.value.handle ∉ (s.trees.erase t.value.handle).handles := by
    rw [hself]
    exact Forest.not_mem_handles_erase hs.nodup ht
  have hstay : place.anchor ∈ (s.trees.erase t.value.handle).handles := by
    rw [hself]
    exact (Forest.mem_handles_erase hs.nodup ht).mpr ⟨isLive_iff.mp (ha.isLive_anchor hs), hout⟩
  have hput := Forest.find?_insert hgone hstay
  have hne : place.anchor ≠ t.value.handle := hself.symm ▸ ha.ne_anchor
  rw [hself] at hput
  cases place with
  | lastIn parent | firstIn parent =>
    exact Forest.find?_update_of_not_mem (hself.symm ▸ hput) hout
  | before sibling | after sibling =>
    rw [moved_of_ne (by simp [Place.anchor]) hne, hself]
    exact hput

end Admits

/-- **What moving a node does.**  One child list gets the node, one loses it, and nothing else is
changed but the body of the container that is named. -/
structure Moves (s s' : Sheet) (h p : Handle) (place : Place) : Prop where
  target : place.Arranges h ((s.children p).erase h) (s'.children p)
  source : ∀ q, s.parent? h = some q → q ≠ p → s'.children q = (s.children q).erase h
  others : ∀ k, k ≠ p → s.parent? h ≠ some k → s'.children k = s.children k
  parent : s'.parent? h = some p
  subtree : s'.find? h = s.find? h
  node : ∀ k, s'.node? k =
    if place = .lastIn k ∨ place = .firstIn k then (s.node? k).map giveBody else s.node? k
  fresh : s'.fresh = s.fresh

theorem WellFormed.erase_children (hs : s.WellFormed) (hk : s.parent? h ≠ some k) :
    (s.children k).erase h = s.children k :=
  List.erase_of_not_mem fun hmem => hk (hs.parent?_eq_some_iff.mpr hmem)

theorem Admits.moves (ha : s.Admits h p place) (hs : s.WellFormed) (ht : s.find? h = some t) :
    s.Moves (s.moved place t) h p place := by
  have htarget : place.Arranges h ((s.children p).erase h) ((s.moved place t).children p) := by
    rw [ha.children_moved hs ht]
    exact Place.arranges_among ((ha.liesIn_iff hs p).mpr rfl)
  have hothers (k : Handle) (hk : k ≠ p) :
      (s.moved place t).children k = (s.children k).erase h := by
    rw [ha.children_moved hs ht, Place.among_of_not_liesIn fun hin => hk ((ha.liesIn_iff hs k).mp hin)]
  exact {
    target := htarget
    source := fun q _ hq => hothers q hq
    others := fun k hk hparent => (hothers k hk).trans (hs.erase_children hparent)
    parent := (ha.wellFormed_moved hs ht).parent?_eq_some_iff.mpr (htarget.mem_iff.mpr (.inl rfl))
    subtree := (ha.find?_moved hs ht).trans ht.symm
    node := ha.node?_moved hs ht
    fresh := moved_fresh place t }

/-! ### Taking out -/

/-- The sheet with a node detached. -/
def unlinked (s : Sheet) (t : Tree Entry) : Sheet :=
  { s with trees := s.trees.erase t.value.handle ++ .cons t.value t.children .nil }

/-- The sheet without a node and all that is below it. -/
def dropped (s : Sheet) (h : Handle) : Sheet := { s with trees := s.trees.erase h }

/-- **What detaching a node does**: one child list loses the node, and that is all. -/
structure Unlinks (s s' : Sheet) (h : Handle) : Prop where
  source : ∀ q, s.parent? h = some q → s'.children q = (s.children q).erase h
  others : ∀ k, s.parent? h ≠ some k → s'.children k = s.children k
  parent : s'.parent? h = none
  subtree : s'.find? h = s.find? h
  node : ∀ k, s'.node? k = s.node? k
  fresh : s'.fresh = s.fresh

/-- **What removing a node does**: the node and its descendants are no longer live, one child list
loses the node, and the other nodes stay as they are. -/
structure Drops (s s' : Sheet) (h : Handle) : Prop where
  live : ∀ k, s'.IsLive k ↔ s.IsLive k ∧ ¬ ReflTransGen s.IsParent h k
  source : ∀ q, s.parent? h = some q → s'.children q = (s.children q).erase h
  others : ∀ k, s'.IsLive k → s.parent? h ≠ some k → s'.children k = s.children k
  node : ∀ k, s'.IsLive k → s'.node? k = s.node? k
  fresh : s'.fresh = s.fresh

theorem root_mem_erase (hs : s.WellFormed) (hroot : h ≠ Sheet.root) :
    Sheet.root ∈ (s.trees.erase h).topHandles := by
  rw [Forest.topHandles_erase]
  exact (List.mem_erase_of_ne (Ne.symm hroot)).mpr hs.root

end Sheet

theorem Row.Proper.without {r : Row} (hr : r.Proper) (h : Handle) : (r.without h).Proper where
  root := hr.root
  body hchildren := hr.body fun hnil => hchildren (by rw [Row.without, hnil]; rfl)

namespace Sheet

variable {s s' : Sheet} {h k p : Handle} {t : Tree Entry} {place : Place}

theorem maps_unlinked (hs : s.WellFormed) (ht : s.find? h = some t) :
    s.Maps (s.unlinked t) (Row.without h) where
  handle _ := rfl
  rows := by
    have hself : t.value.handle = h := Forest.handle_of_find? ht
    rw [unlinked, hself]
    exact Forest.rows_detach hs.nodup ht

/-- The rows of the nodes that are left. -/
theorem exists_row_of_mem_dropped (hs : s.WellFormed) (ht : s.find? h = some t) {r : Row}
    (hr : r ∈ (s.dropped h).trees.rows) : ∃ old ∈ s.trees.rows, r = old.without h := by
  obtain ⟨rest, hrows, herased⟩ := Forest.exists_rows_erase hs.nodup ht
  change r ∈ (s.trees.erase h).rows at hr
  rw [herased] at hr
  obtain ⟨old, hold, rfl⟩ := List.mem_map.mp hr
  exact ⟨old, hrows.mem_iff.mpr (List.mem_append_right _ hold), rfl⟩

namespace Movable

variable (hh : s.Movable h)

include hh

theorem wellFormed_unlinked (hs : s.WellFormed) (ht : s.find? h = some t) :
    (s.unlinked t).WellFormed := by
  refine (maps_unlinked hs ht).wellFormed hs rfl ?_ fun r hr => (hs.proper r hr).without h
  have hself : t.value.handle = h := Forest.handle_of_find? ht
  rw [unlinked, hself, Forest.topHandles_append]
  exact List.mem_append_left _ (root_mem_erase hs hh.ne_root)

theorem unlinks (hs : s.WellFormed) (ht : s.find? h = some t) : s.Unlinks (s.unlinked t) h := by
  have hmaps := maps_unlinked hs ht
  have hs' := hh.wellFormed_unlinked hs ht
  have hself : t.value.handle = h := Forest.handle_of_find? ht
  have hchildren (k : Handle) : (s.unlinked t).children k = (s.children k).erase h := by
    by_cases hk : s.IsLive k
    · obtain ⟨n, hn⟩ := hk.exists_node?
      exact (hmaps.read hs hn).2
    · rw [children_of_not_isLive hk, children_of_not_isLive (mt hmaps.isLive_iff.mp hk)]
      rfl
  have hgone := Forest.not_mem_handles_erase hs.nodup ht
  refine ⟨fun q _ => hchildren q, fun k hk => (hchildren k).trans (hs.erase_children hk), ?_, ?_, ?_,
    rfl⟩
  · by_contra hparent
    obtain ⟨q, hq⟩ := Option.ne_none_iff_exists'.mp hparent
    rw [hs'.parent?_eq_some_iff, hchildren] at hq
    exact (hs.nodup_children q).not_mem_erase hq
  · rw [ht, find?, unlinked, hself, Forest.find?_append_of_not_mem hgone, Forest.find?, if_pos hself]
  · intro k
    rw [hmaps.node?_eq hs]
    exact Option.map_id'

theorem wellFormed_dropped (hs : s.WellFormed) (ht : s.find? h = some t) :
    (s.dropped h).WellFormed where
  nodup := Forest.nodup_erase hs.nodup ht
  fresh k hk := hs.fresh k ((Forest.mem_handles_erase hs.nodup ht).mp hk).1
  root := root_mem_erase hs hh.ne_root
  proper r hr := by
    obtain ⟨old, hold, rfl⟩ := exists_row_of_mem_dropped hs ht hr
    exact (hs.proper old hold).without h

theorem drops (hs : s.WellFormed) (ht : s.find? h = some t) : s.Drops (s.dropped h) h := by
  have hs' := hh.wellFormed_dropped hs ht
  have hlive (k : Handle) :
      (s.dropped h).IsLive k ↔ s.IsLive k ∧ ¬ ReflTransGen s.IsParent h k := by
    rw [isLive_iff, dropped, Forest.mem_handles_erase hs.nodup ht, ← isLive_iff]
    exact and_congr_right fun hk => not_congr (hs.mem_handles_iff ht hk)
  -- What is left of the rows are old rows without the node.
  have hread {k : Handle} (hk : (s.dropped h).IsLive k) :
      (s.dropped h).node? k = s.node? k ∧
        (s.dropped h).children k = (s.children k).erase h := by
    obtain ⟨n, hn⟩ := hk.exists_node?
    obtain ⟨old, hold, hrow⟩ := exists_row_of_mem_dropped hs ht (row_mem hs'.nodup hn)
    obtain ⟨hnode, hchildren⟩ := (mem_rows_iff hs.nodup).mp hold
    obtain rfl : k = old.handle := congrArg Row.handle hrow
    obtain rfl : n = old.node := congrArg Row.node hrow
    exact ⟨hn.trans hnode.symm, hchildren ▸ congrArg Row.children hrow⟩
  refine ⟨hlive, fun q hq => (hread ?_).2, fun k hk hparent => ?_, fun k hk => (hread hk).1, rfl⟩
  · -- The parent is left, for it is not below the node.
    refine (hlive q).mpr ⟨(hs.isLive_of_isParent hq).1, fun hbelow => ?_⟩
    exact hs.acyclic h (TransGen.tail' hbelow hq)
  · rw [(hread hk).2, hs.erase_children hparent]

end Movable

end Sheet

/-! ### Edits -/

namespace Edit

variable {s s' : Sheet} {edit : Edit} {e : EditError}

/-- **The conditions of an edit.** -/
def Allowed (s : Sheet) : Edit → Prop
  | detach h | remove h => s.Movable h
  | append p h | prepend p h => s.Fits h p
  | insertBefore sibling h | insertAfter sibling h =>
    s.IsLive sibling ∧ ∃ p, s.parent? sibling = some p ∧ s.Fits h p

/-- **Why an edit is refused**: the first of its conditions that fails. -/
def Refused (s : Sheet) (e : EditError) : Edit → Prop
  | detach h | remove h => s.Immovable h e
  | append p h | prepend p h => s.Misfit h p e
  | insertBefore sibling h | insertAfter sibling h =>
    (s.parent? sibling = none ∧ e = .noParent sibling) ∨
      ∃ p, s.parent? sibling = some p ∧ s.Misfit h p e

/-- **The effect of an edit.**  A node that is inserted next to itself stays where it is. -/
def Does (s s' : Sheet) : Edit → Prop
  | detach h => s.Unlinks s' h
  | remove h => s.Drops s' h
  | append p h => s.Moves s' h p (.lastIn p)
  | prepend p h => s.Moves s' h p (.firstIn p)
  | insertBefore sibling h =>
    if sibling = h then s' = s
    else ∃ p, s.parent? sibling = some p ∧ s.Moves s' h p (.before sibling)
  | insertAfter sibling h =>
    if sibling = h then s' = s
    else ∃ p, s.parent? sibling = some p ∧ s.Moves s' h p (.after sibling)

theorem allowed_or (hs : s.WellFormed) (edit : Edit) :
    edit.Allowed s ∨ ∃ e, edit.Refused s e := by
  have hbeside (sibling h : Handle) :
      (s.IsLive sibling ∧ ∃ p, s.parent? sibling = some p ∧ s.Fits h p) ∨
        ∃ e, (s.parent? sibling = none ∧ e = .noParent sibling) ∨
          ∃ p, s.parent? sibling = some p ∧ s.Misfit h p e := by
    cases hparent : s.parent? sibling with
    | none => exact .inr ⟨_, .inl ⟨rfl, rfl⟩⟩
    | some p =>
      rcases s.fits_or h p with hh | ⟨e, he⟩
      · exact .inl ⟨(hs.isLive_of_isParent hparent).2, p, rfl, hh⟩
      · exact .inr ⟨e, .inr ⟨p, rfl, he⟩⟩
  cases edit with
  | detach h | remove h => exact s.movable_or h
  | append p h | prepend p h => exact s.fits_or h p
  | insertBefore sibling h | insertAfter sibling h => exact hbeside sibling h

end Edit

namespace Sheet

variable {s s' : Sheet} {h k p : Handle} {t : Tree Entry} {place : Place} {e : EditError}

theorem move_of_misfit (hs : s.WellFormed) (hp : s.container place = .ok p) (he : s.Misfit h p e) :
    s.move place h = .error e := by
  rw [move, hp]
  simp [bind, Except.bind, checkInsertion_of_misfit hs he]

theorem move_of_fits (hs : s.WellFormed) (hp : s.container place = .ok p) (hh : s.Fits h p) :
    ∃ t, s.find? h = some t ∧ s.move place h = .ok (s.moved place t) := by
  obtain ⟨t, ht, hcheck⟩ := checkInsertion_of_fits hs hh
  refine ⟨t, ht, ?_⟩
  rw [move, hp]
  simp [bind, Except.bind, pure, Except.pure, hcheck]

/-- What is moved fits. -/
theorem exists_fits_of_move (hs : s.WellFormed) (hmove : s.move place h = .ok s') :
    ∃ p t, s.container place = .ok p ∧ s.Fits h p ∧ s.find? h = some t ∧
      s' = s.moved place t := by
  cases hp : s.container place with
  | error e =>
    rw [move, hp] at hmove
    cases hmove
  | ok p =>
    rcases s.fits_or h p with hh | ⟨e, he⟩
    · obtain ⟨t, ht, hmoved⟩ := move_of_fits hs hp hh
      exact ⟨p, t, rfl, hh, ht, Except.ok.inj (hmove.symm.trans hmoved)⟩
    · cases hmove.symm.trans (move_of_misfit hs hp he)

/-- A node that fits into a container is put there. -/
theorem exists_move_into (hs : s.WellFormed) (hplace : place = .lastIn p ∨ place = .firstIn p)
    (hh : s.Fits h p) :
    ∃ s', s.move place h = .ok s' ∧ s.Moves s' h p place ∧ s'.WellFormed := by
  have hp : s.container place = .ok p := by rcases hplace with rfl | rfl <;> rfl
  have hne : place.anchor ≠ h := by
    have hanchor : place.anchor = p := by rcases hplace with rfl | rfl <;> rfl
    rw [hanchor]
    rintro rfl
    exact hh.apart .refl
  obtain ⟨t, ht, hmove⟩ := move_of_fits hs hp hh
  have ha : s.Admits h p place := ⟨hh, hp, hne⟩
  exact ⟨_, hmove, ha.moves hs ht, ha.wellFormed_moved hs ht⟩

/-- **A node that fits beside a sibling** is put there, unless it is the sibling. -/
theorem exists_move_beside (hs : s.WellFormed) {sibling : Handle}
    (hplace : place = .before sibling ∨ place = .after sibling)
    (hp : s.parent? sibling = some p) (hh : s.Fits h p) :
    ∃ s', s.move place h = .ok s' ∧ s'.WellFormed ∧
      if sibling = h then s' = s else ∃ q, s.parent? sibling = some q ∧ s.Moves s' h q place := by
  have hcontainer : s.container place = .ok p :=
    container_eq_ok_iff.mpr (.inr (.inr ⟨sibling, hplace, hp⟩))
  have hanchor : place.anchor = sibling := by rcases hplace with rfl | rfl <;> rfl
  obtain ⟨t, ht, hmove⟩ := move_of_fits hs hcontainer hh
  have hself : t.value.handle = h := Forest.handle_of_find? ht
  by_cases hne : sibling = h
  · have hstay : s.moved place t = s := by
      rcases hplace with rfl | rfl <;> exact if_pos (hne.trans hself.symm)
    exact ⟨s, hmove.trans (congrArg _ hstay), hs, if_pos hne ▸ rfl⟩
  · have ha : s.Admits h p place := ⟨hh, hcontainer, hanchor ▸ hne⟩
    refine ⟨_, hmove, ha.wellFormed_moved hs ht, ?_⟩
    rw [if_neg hne]
    exact ⟨p, hp, ha.moves hs ht⟩

end Sheet

namespace Edit

variable {s s' : Sheet} {edit : Edit} {e : EditError}

theorem apply_of_refused (hs : s.WellFormed) (he : edit.Refused s e) : edit.apply s = .error e := by
  have hbeside {sibling h : Handle} {place : Place}
      (hplace : place = .before sibling ∨ place = .after sibling)
      (he : (s.parent? sibling = none ∧ e = .noParent sibling) ∨
        ∃ p, s.parent? sibling = some p ∧ s.Misfit h p e) : s.move place h = .error e := by
    rcases he with ⟨hnone, rfl⟩ | ⟨p, hp, he⟩
    · have hcontainer : s.container place = .error (.noParent sibling) := by
        rcases hplace with rfl | rfl <;> rw [Sheet.container, hnone]
      rw [Sheet.move, hcontainer]
      rfl
    · exact Sheet.move_of_misfit hs
        (Sheet.container_eq_ok_iff.mpr (.inr (.inr ⟨sibling, hplace, hp⟩))) he
  cases edit with
  | detach h => rw [apply, Sheet.detach, Sheet.checkMovable_of_immovable he]; rfl
  | remove h => rw [apply, Sheet.remove, Sheet.checkMovable_of_immovable he]; rfl
  | append p h => exact Sheet.move_of_misfit hs rfl he
  | prepend p h => exact Sheet.move_of_misfit hs rfl he
  | insertBefore sibling h => exact hbeside (.inl rfl) he
  | insertAfter sibling h => exact hbeside (.inr rfl) he

/-- **An edit that is allowed happens.** -/
theorem exists_apply_of_allowed (hs : s.WellFormed) (he : edit.Allowed s) :
    ∃ s', edit.apply s = .ok s' ∧ edit.Does s s' ∧ s'.WellFormed := by
  cases edit with
  | detach h =>
    obtain ⟨t, ht, hcheck⟩ := Sheet.checkMovable_of_movable he
    have hself : t.value.handle = h := Forest.handle_of_find? ht
    refine ⟨s.unlinked t, ?_, he.unlinks hs ht, he.wellFormed_unlinked hs ht⟩
    rw [apply, Sheet.detach, hcheck, Sheet.unlinked, hself]
    rfl
  | remove h =>
    obtain ⟨t, ht, hcheck⟩ := Sheet.checkMovable_of_movable he
    refine ⟨s.dropped h, ?_, he.drops hs ht, he.wellFormed_dropped hs ht⟩
    rw [apply, Sheet.remove, hcheck]
    rfl
  | append p h => exact Sheet.exists_move_into hs (.inl rfl) he
  | prepend p h => exact Sheet.exists_move_into hs (.inr rfl) he
  | insertBefore sibling h =>
    obtain ⟨-, p, hp, hh⟩ := he
    obtain ⟨s', hmove, hs', hdoes⟩ := Sheet.exists_move_beside hs (.inl rfl) hp hh
    exact ⟨s', hmove, hdoes, hs'⟩
  | insertAfter sibling h =>
    obtain ⟨-, p, hp, hh⟩ := he
    obtain ⟨s', hmove, hs', hdoes⟩ := Sheet.exists_move_beside hs (.inr rfl) hp hh
    exact ⟨s', hmove, hdoes, hs'⟩

/-- **Edits keep a sheet well-formed.** -/
theorem wellFormed_apply (hs : s.WellFormed) (h : edit.apply s = .ok s') : s'.WellFormed := by
  rcases edit.allowed_or hs with he | ⟨e, he⟩
  · obtain ⟨s₁, happly, -, hs₁⟩ := exists_apply_of_allowed hs he
    obtain rfl := Except.ok.inj (happly.symm.trans h)
    exact hs₁
  · cases (apply_of_refused hs he).symm.trans h

end Edit

end LosslessCss
