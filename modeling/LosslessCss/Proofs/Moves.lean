import LosslessCss.Sheet.Edit
import LosslessCss.Proofs.Deriving

/-!
# What moving nodes keeps

An edit never makes a node.  It takes a tree out and puts it down somewhere else, and at most it
gives an at-rule a body.  So whatever is true of every node, and does not depend on whether an
at-rule has a body, stays true of every node (`Forest.Sound`).  One thing is added: a node without a
block holds nothing, because a node is put into containers only, and an at-rule that gets a child
gets a body.

## Main Definitions

* `Entry.Stable` : a property of nodes and their handles that edits cannot destroy
* `Forest.Sound` : all nodes of a forest have it, and nodes without a block hold nothing
* `Sheet.Sound`

## Main Statements

* `Sheet.Sound.move` : moving a node keeps a sheet sound
-/

namespace LosslessCss

/-! ### Bodies -/

/-- A node that becomes the container of another one has a body from then on. -/
theorem Sheet.giveBody_opensBlock {n : Node} (hcontainer : n.content.isContainer = true)
    (hroot : n.content ≠ .root) : (giveBody n).content.opensBlock = true := by
  obtain ⟨content, raws, span⟩ := n
  cases content <;> first | rfl | contradiction

theorem Sheet.giveBody_isContainer (n : Node) :
    (giveBody n).content.isContainer = n.content.isContainer := by
  obtain ⟨content, raws, span⟩ := n
  cases content <;> rfl

theorem Sheet.giveBody_raws (n : Node) : (giveBody n).raws = n.raws := by
  obtain ⟨content, raws, span⟩ := n
  cases content <;> rfl

theorem Sheet.giveBody_of_root {n : Node} (hroot : n.content = .root) : giveBody n = n := by
  unfold giveBody
  rw [hroot]

/-- **What edits cannot destroy**: it excludes the root, it does not depend on a body, and it tells
for each handle whether its node is a container. -/
structure Entry.Stable (good : Entry → Prop) : Prop where
  ne_root : ∀ {e}, good e → e.node.content ≠ .root
  giveBody : ∀ {e}, good e → good { e with node := Sheet.giveBody e.node }
  isContainer : ∀ {e e'}, good e → good e' → e.handle = e'.handle →
    e.node.content.isContainer = e'.node.content.isContainer

/-- **All entries of a forest have a property**, and nodes without a block hold nothing. -/
def Forest.Sound (good : Entry → Prop) : Forest Entry → Prop
  | nil => True
  | cons e children next =>
    (good e ∧ (e.node.content.opensBlock = false → children = nil)) ∧
      children.Sound good ∧ next.Sound good

/-! ### Places -/

/-- Where a place does not refer to a node the tree goes further down or further on. -/
theorem Forest.insert_cons_of_ne {place : Place} {t : Tree Entry} {e : Entry}
    {children next : Forest Entry} (h : e.handle ≠ place.anchor) :
    (cons e children next).insert place t =
      cons e (children.insert place t) (next.insert place t) := by
  rw [Forest.insert.eq_def]
  exact if_neg h

/-- A tree behind the children of its container. -/
theorem Forest.insert_lastIn {parent : Handle} {t : Tree Entry} {e : Entry}
    {children next : Forest Entry} (h : e.handle = parent) :
    (cons e children next).insert (.lastIn parent) t =
      cons e (children ++ cons t.value t.children nil) next := by
  rw [Forest.insert]
  exact if_pos h

/-- A tree in front of the children of its container. -/
theorem Forest.insert_firstIn {parent : Handle} {t : Tree Entry} {e : Entry}
    {children next : Forest Entry} (h : e.handle = parent) :
    (cons e children next).insert (.firstIn parent) t =
      cons e (cons t.value t.children children) next := by
  rw [Forest.insert]
  exact if_pos h

namespace Forest.Sound

variable {good good' : Entry → Prop} {f g : Forest Entry} {t : Tree Entry} {h : Handle}

theorem mono (hf : f.Sound good) (hgood : ∀ e, good e → good' e) : f.Sound good' := by
  induction f with
  | nil => trivial
  | cons e children next ihChildren ihNext =>
    exact ⟨⟨hgood e hf.1.1, hf.1.2⟩, ihChildren hf.2.1, ihNext hf.2.2⟩

theorem append (hf : f.Sound good) (hg : g.Sound good) : (f ++ g).Sound good := by
  induction f with
  | nil => exact hg
  | cons e children next _ ih => exact ⟨hf.1, hf.2.1, ih hf.2.2⟩

/-- Taking a tree out keeps a forest sound. -/
theorem erase (hf : f.Sound good) (h : Handle) : (f.erase h).Sound good := by
  induction f with
  | nil => trivial
  | cons e children next ihChildren ihNext =>
    obtain ⟨⟨hgood, hleaf⟩, hchildren, hnext⟩ := hf
    rw [Forest.erase]
    split
    · exact hnext
    · refine ⟨⟨hgood, fun hblock => ?_⟩, ihChildren hchildren, ihNext hnext⟩
      rw [hleaf hblock]
      rfl

/-- What is found in a sound forest is sound. -/
theorem find? (hf : f.Sound good) (ht : f.find? h = some t) :
    t.value.handle = h ∧ (cons t.value t.children nil).Sound good := by
  induction f with
  | nil => cases ht
  | cons e children next ihChildren ihNext =>
    rw [Forest.find?] at ht
    split at ht
    · next hhandle =>
      obtain rfl := Option.some.inj ht
      exact ⟨hhandle, hf.1, hf.2.1, trivial⟩
    · split at ht
      · next hfound =>
        obtain rfl := Option.some.inj ht
        exact ihChildren hf.2.1 hfound
      · exact ihNext hf.2.2 ht

/-- **A tree next to a sibling** keeps a forest sound. -/
theorem insert_next {sibling : Handle} {place : Place}
    (hplace : place = .before sibling ∨ place = .after sibling) (hf : f.Sound good)
    (ht : (cons t.value t.children nil).Sound good) : (f.insert place t).Sound good := by
  induction f with
  | nil => trivial
  | cons e children next ihChildren ihNext =>
    have hkeep : (cons e (children.insert place t) (next.insert place t)).Sound good := by
      obtain ⟨⟨hgood, hleaf⟩, hchildren, hnext⟩ := hf
      refine ⟨⟨hgood, fun hblock => ?_⟩, ihChildren hchildren, ihNext hnext⟩
      rw [hleaf hblock]
      rfl
    rcases hplace with rfl | rfl
    · rw [Forest.insert]
      split
      · exact ⟨ht.1, ht.2.1, hf⟩
      · exact hkeep
    · rw [Forest.insert]
      split
      · exact ⟨hf.1, hf.2.1, ht.1, ht.2.1, hf.2.2⟩
      · exact hkeep

/-- **A tree in a container** keeps a forest sound, if the container gets a body. -/
theorem insert_into (hstable : Entry.Stable good) {parent : Handle} {place : Place}
    (hplace : place = .lastIn parent ∨ place = .firstIn parent)
    (hparent : ∀ e, good e → e.handle = parent → e.node.content.isContainer = true)
    (hf : f.Sound good) (ht : (cons t.value t.children nil).Sound good) :
    ((f.insert place t).update parent Sheet.giveBody).Sound good := by
  induction f with
  | nil => trivial
  | cons e children next ihChildren ihNext =>
    obtain ⟨⟨hgood, hleaf⟩, hchildren, hnext⟩ := hf
    have hanchor : place.anchor = parent := by rcases hplace with rfl | rfl <;> rfl
    by_cases hhandle : e.handle = parent
    · have hput {inner : Forest Entry} (hinner : inner.Sound good) :
          (cons { e with node := Sheet.giveBody e.node } inner next).Sound good := by
        refine ⟨⟨hstable.giveBody hgood, fun hblock => ?_⟩, hinner, hnext⟩
        rw [Sheet.giveBody_opensBlock (hparent e hgood hhandle) (hstable.ne_root hgood)] at hblock
        cases hblock
      rcases hplace with rfl | rfl
      · rw [Forest.insert_lastIn hhandle, Forest.update, if_pos hhandle]
        exact hput (hchildren.append ht)
      · rw [Forest.insert_firstIn hhandle, Forest.update, if_pos hhandle]
        exact hput ⟨ht.1, ht.2.1, hchildren⟩
    · rw [Forest.insert_cons_of_ne (by rwa [hanchor]), Forest.update, if_neg hhandle]
      refine ⟨⟨hgood, fun hblock => ?_⟩, ihChildren hchildren, ihNext hnext⟩
      rw [hleaf hblock]
      rfl

end Forest.Sound

/-! ### Sheets -/

/-- **A sheet with a property**: the tree of the root comes first, and all other nodes are sound. -/
structure Sheet.Sound (good : Entry → Prop) (root : Node) (s : Sheet) : Prop where
  content : root.content = .root
  after : ∀ x ∈ root.raws.after, IsGapText x
  trees : ∃ children others, s.trees = .cons ⟨Sheet.root, root⟩ children others ∧
    children.Sound good ∧ others.Sound good

namespace Sheet.Sound

variable {good : Entry → Prop} {root : Node} {s : Sheet}

/-- What is found apart from the root is sound. -/
theorem find? (hs : s.Sound good root) {h : Handle} {t : Tree Entry} (ht : s.find? h = some t)
    (hroot : h ≠ Sheet.root) :
    t.value.handle = h ∧ (Forest.cons t.value t.children .nil).Sound good := by
  obtain ⟨children, others, htrees, hchildren, hothers⟩ := hs.trees
  rw [Sheet.find?, htrees, Forest.find?, if_neg (Ne.symm hroot)] at ht
  split at ht
  · next hfound =>
    obtain rfl := Option.some.inj ht
    exact hchildren.find? hfound
  · exact hothers.find? ht

/-- Every node that can be moved is sound. -/
theorem checkMovable (hs : s.Sound good root) {h : Handle} {t : Tree Entry}
    (ht : s.checkMovable h = .ok t) :
    h ≠ Sheet.root ∧ t.value.handle = h ∧ (Forest.cons t.value t.children .nil).Sound good := by
  unfold Sheet.checkMovable at ht
  split at ht
  · cases ht
  · next hroot =>
    split at ht
    · next hfound =>
      cases ht
      exact ⟨hroot, hs.find? hfound hroot⟩
    · cases ht

/-- A node is put into containers only. -/
theorem checkInsertion (hs : s.Sound good root) {parent h : Handle} {t : Tree Entry}
    (ht : s.checkInsertion parent h = .ok t) :
    s.checkMovable h = .ok t ∧ (parent ≠ Sheet.root → ∃ e, good e ∧ e.handle = parent ∧
      e.node.content.isContainer = true) := by
  unfold Sheet.checkInsertion at ht
  cases hmovable : s.checkMovable h with
  | error e =>
    rw [hmovable] at ht
    cases ht
  | ok t' =>
    rw [hmovable] at ht
    dsimp only [bind, Except.bind] at ht
    split at ht
    · cases ht
    · next node hnode =>
      split at ht
      · cases ht
      · next hcontainer =>
        split at ht
        · cases ht
        · cases ht
          refine ⟨rfl, fun hroot => ?_⟩
          obtain ⟨found, hfound, rfl⟩ := Option.map_eq_some_iff.mp hnode
          obtain ⟨hhandle, hsound⟩ := hs.find? hfound hroot
          exact ⟨found.value, hsound.1.1, hhandle, by simpa using hcontainer⟩

/-- The root has no parent. -/
theorem parent?_root (hs : s.Sound good root) : s.parent? Sheet.root = none := by
  obtain ⟨children, others, htrees, -⟩ := hs.trees
  rw [Sheet.parent?, Sheet.ancestry, htrees, Forest.ancestry?, if_pos rfl]
  rfl

/-- Taking a node out keeps a sheet sound. -/
theorem exists_erase (hs : s.Sound good root) {h : Handle} (hroot : h ≠ Sheet.root) :
    ∃ children others, s.trees.erase h = .cons ⟨Sheet.root, root⟩ children others ∧
      children.Sound good ∧ others.Sound good := by
  obtain ⟨children, others, htrees, hchildren, hothers⟩ := hs.trees
  refine ⟨_, _, ?_, hchildren.erase h, hothers.erase h⟩
  rw [htrees, Forest.erase, if_neg (Ne.symm hroot)]

/-- A tree in a container keeps a sheet sound. -/
theorem moved_into (hstable : Entry.Stable good) (hs : s.Sound good root) {place : Place}
    {parent : Handle} {t : Tree Entry} (hplace : place = .lastIn parent ∨ place = .firstIn parent)
    (hroot : t.value.handle ≠ Sheet.root)
    (ht : (Forest.cons t.value t.children .nil).Sound good)
    (hparent : parent ≠ Sheet.root → ∃ e, good e ∧ e.handle = parent ∧
      e.node.content.isContainer = true) :
    (s.moved place t).Sound good root := by
  obtain ⟨children, others, htrees, hchildren, hothers⟩ := hs.exists_erase hroot
  have hmoved : (s.moved place t).trees =
      ((s.trees.erase t.value.handle).insert place t).update parent giveBody := by
    rcases hplace with rfl | rfl <;> rfl
  refine ⟨hs.content, hs.after, ?_⟩
  rw [hmoved, htrees]
  by_cases hhandle : Sheet.root = parent
  · subst hhandle
    have htop : (⟨Sheet.root, root⟩ : Entry).handle = Sheet.root := rfl
    rcases hplace with rfl | rfl
    · rw [Forest.insert_lastIn htop, Forest.update, if_pos rfl, giveBody_of_root hs.content]
      exact ⟨_, _, rfl, hchildren.append ht, hothers⟩
    · rw [Forest.insert_firstIn htop, Forest.update, if_pos rfl, giveBody_of_root hs.content]
      exact ⟨_, _, rfl, ⟨ht.1, ht.2.1, hchildren⟩, hothers⟩
  · have hanchor : place.anchor = parent := by rcases hplace with rfl | rfl <;> rfl
    obtain ⟨e₀, hgood₀, rfl, hcontainer₀⟩ := hparent (Ne.symm hhandle)
    have hcontainers : ∀ e, good e → e.handle = e₀.handle → e.node.content.isContainer = true :=
      fun e hgood hsame => (hstable.isContainer hgood hgood₀ hsame).trans hcontainer₀
    rw [Forest.insert_cons_of_ne (by rwa [hanchor]), Forest.update, if_neg hhandle]
    exact ⟨_, _, rfl, hchildren.insert_into hstable hplace hcontainers ht,
      hothers.insert_into hstable hplace hcontainers ht⟩

/-- A tree next to a sibling keeps a sheet sound. -/
theorem moved_next (hs : s.Sound good root) {place : Place} {sibling : Handle} {t : Tree Entry}
    (hplace : place = .before sibling ∨ place = .after sibling)
    (hroot : t.value.handle ≠ Sheet.root)
    (ht : (Forest.cons t.value t.children .nil).Sound good) (hsibling : sibling ≠ Sheet.root) :
    (s.moved place t).Sound good root := by
  by_cases hsame : sibling = t.value.handle
  · have hmoved : s.moved place t = s := by
      rcases hplace with rfl | rfl <;> exact if_pos hsame
    rwa [hmoved]
  · obtain ⟨children, others, htrees, hchildren, hothers⟩ := hs.exists_erase hroot
    have hmoved : (s.moved place t).trees = (s.trees.erase t.value.handle).insert place t := by
      rcases hplace with rfl | rfl <;> exact congrArg Sheet.trees (if_neg hsame)
    have hanchor : place.anchor = sibling := by rcases hplace with rfl | rfl <;> rfl
    refine ⟨hs.content, hs.after, ?_⟩
    rw [hmoved, htrees, Forest.insert_cons_of_ne (by rw [hanchor]; exact Ne.symm hsibling)]
    exact ⟨_, _, rfl, hchildren.insert_next hplace ht, hothers.insert_next hplace ht⟩

/-- A node that has a parent is not the root. -/
theorem ne_root_of_container (hs : s.Sound good root) {sibling parent : Handle} {place : Place}
    (hplace : place = .before sibling ∨ place = .after sibling)
    (hcontainer : s.container place = .ok parent) : sibling ≠ Sheet.root := by
  rintro rfl
  rcases hplace with rfl | rfl <;>
    · rw [container, hs.parent?_root] at hcontainer
      cases hcontainer

/-- **Moving a node keeps a sheet sound.** -/
theorem move (hstable : Entry.Stable good) (hs : s.Sound good root) {place : Place} {h : Handle}
    {s' : Sheet}
    (hmove : s.move place h = .ok s') : s'.Sound good root := by
  unfold Sheet.move at hmove
  cases hcontainer : s.container place with
  | error e =>
    rw [hcontainer] at hmove
    cases hmove
  | ok parent =>
    rw [hcontainer] at hmove
    dsimp only [bind, Except.bind] at hmove
    split at hmove
    · cases hmove
    · next t ht =>
      cases hmove
      obtain ⟨hmovable, hparent⟩ := hs.checkInsertion ht
      obtain ⟨hroot, rfl, hsound⟩ := hs.checkMovable hmovable
      cases place with
      | lastIn parent' =>
        cases hcontainer
        exact hs.moved_into hstable (.inl rfl) hroot hsound hparent
      | firstIn parent' =>
        cases hcontainer
        exact hs.moved_into hstable (.inr rfl) hroot hsound hparent
      | before sibling =>
        exact hs.moved_next (.inl rfl) hroot hsound (hs.ne_root_of_container (.inl rfl) hcontainer)
      | after sibling =>
        exact hs.moved_next (.inr rfl) hroot hsound (hs.ne_root_of_container (.inr rfl) hcontainer)

/-- What is attached to the root of a sound sheet. -/
theorem exists_attachedTree (hs : s.Sound good root) :
    ∃ children : Forest Entry, s.attachedTree = ⟨root, children.map Entry.node⟩ ∧
      children.Sound good := by
  obtain ⟨children, others, htrees, hchildren, -⟩ := hs.trees
  refine ⟨children, ?_, hchildren⟩
  rw [Sheet.attachedTree, Sheet.tree?, Sheet.find?, htrees, Forest.find?, if_pos rfl]
  rfl

end Sheet.Sound

end LosslessCss
