import LosslessCss.Proofs.Rows
import LosslessCss.Proofs.ParsedNodes
import LosslessCss.Proofs.FieldEdits
import Mathlib

/-!
# Parents and children

A sheet answers questions about kinship in two ways.  Downwards, the children of a node are in the
row of the node.  Upwards, its parent is the second handle of the line from the node to the top.  On
a well-formed sheet (`Sheet.WellFormed`) the two are converse relations
(`Sheet.WellFormed.parent?_eq_some_iff`), and since the line from a child is the line from its parent
with one handle in front, everything that is asked along the line is a statement about chains of
parents (`Sheet.WellFormed.kin_induction`).

Sheets that were read are well-formed, since a parse makes trees that are, and so is the empty sheet.
A new node is put at the top under a handle of its own.

## Main Definitions

* `Sheet.WellFormed` : handles are distinct, the root is on top and is the only root, and children
  are in blocks
* `Sheet.IsLive`, `Sheet.IsParent`
* `Sheet.Consistent` : what the answers of a sheet have to do with each other

## Main Statements

* `Sheet.WellFormed.parent?_eq_some_iff` : parents and child lists agree
* `Sheet.WellFormed.mem_ancestry_iff`, `Sheet.WellFormed.mem_handles_iff` : the line upwards has the
  ancestors of a node, and its tree has the descendants
* `Sheet.WellFormed.consistent`
* `Sheet.wellFormed_of_parse`, `Sheet.WellFormed.create` : where sheets and nodes come from
-/

namespace LosslessCss

open Relation (ReflTransGen TransGen)

/-- **A row that can be in a sheet**: the root is where its handle says, and what has children is the
root or is written with a block. -/
structure Row.Proper (r : Row) : Prop where
  root : r.node.content = .root ↔ r.handle = Sheet.root
  body : r.children ≠ [] → r.node.content = .root ∨ r.node.content.opensBlock = true

namespace Sheet

/-- **A well-formed sheet**: no two nodes have the same handle, and none the next one to be given;
the root stands at the top; and all rows are proper. -/
structure WellFormed (s : Sheet) : Prop where
  nodup : s.trees.handles.Nodup
  fresh : ∀ h ∈ s.trees.handles, h < s.fresh
  root : Sheet.root ∈ s.trees.topHandles
  proper : ∀ r ∈ s.trees.rows, r.Proper

/-- A node that was not removed. -/
def IsLive (s : Sheet) (h : Handle) : Prop := (s.node? h).isSome = true

/-- The first node is the parent of the second. -/
def IsParent (s : Sheet) (p c : Handle) : Prop := s.parent? c = some p

variable {s s' : Sheet} {h k p q c : Handle} {t : Tree Entry}

/-- No node has two parents. -/
theorem IsParent.unique (hp : s.IsParent p c) (hq : s.IsParent q c) : p = q :=
  Option.some.inj (hp.symm.trans hq)

/-! ### Rows -/

theorem node?_eq_none_iff : s.node? h = none ↔ h ∉ s.trees.handles := by
  rw [node?, Option.map_eq_none_iff, find?, Forest.find?_eq_none_iff]

theorem isLive_iff : s.IsLive h ↔ h ∈ s.trees.handles := by
  rw [IsLive, Option.isSome_iff_ne_none, ne_eq, node?_eq_none_iff, not_not]

theorem node?_of_not_isLive (hh : ¬ s.IsLive h) : s.node? h = none :=
  Option.not_isSome_iff_eq_none.mp hh

theorem isLive_of_node? {n : Node} (hn : s.node? h = some n) : s.IsLive h :=
  Option.isSome_iff_exists.mpr ⟨n, hn⟩

theorem IsLive.exists_node? (hh : s.IsLive h) : ∃ n, s.node? h = some n :=
  Option.isSome_iff_exists.mp hh

theorem IsLive.exists_find? (hh : s.IsLive h) : ∃ t, s.find? h = some t :=
  Forest.exists_find?_of_mem (isLive_iff.mp hh)

theorem find?_of_not_isLive (hh : ¬ s.IsLive h) : s.find? h = none :=
  Forest.find?_eq_none_iff.mpr fun hmem => hh (isLive_iff.mpr hmem)

theorem node?_of_find? (ht : s.find? h = some t) : s.node? h = some t.value.node := by
  rw [node?, ht]
  rfl

theorem children_of_find? (ht : s.find? h = some t) : s.children h = t.children.topHandles := by
  rw [children, ht]
  rfl

theorem children_of_not_isLive (hh : ¬ s.IsLive h) : s.children h = [] := by
  rw [children, find?_of_not_isLive hh]
  rfl

theorem isLive_of_mem_children (hc : c ∈ s.children p) : s.IsLive p := by
  by_contra hdead
  rw [children_of_not_isLive hdead] at hc
  cases hc

/-- **The rows of a sheet** are what the sheet answers. -/
theorem mem_rows_iff (hs : s.trees.handles.Nodup) {r : Row} :
    r ∈ s.trees.rows ↔ s.node? r.handle = some r.node ∧ s.children r.handle = r.children := by
  rw [Forest.mem_rows_iff hs]
  constructor
  · rintro ⟨t, ht, rfl⟩
    exact ⟨node?_of_find? ht, children_of_find? ht⟩
  · rintro ⟨hnode, hchildren⟩
    obtain ⟨t, ht, hvalue⟩ := Option.map_eq_some_iff.mp hnode
    have hhandle : t.value.handle = r.handle := Forest.handle_of_find? ht
    refine ⟨t, ht, ?_⟩
    rw [Tree.row, hhandle, hvalue, ← children_of_find? ht, hchildren]

/-- The row of a node. -/
theorem row_mem (hs : s.trees.handles.Nodup) {n : Node} (hn : s.node? h = some n) :
    (⟨h, n, s.children h⟩ : Row) ∈ s.trees.rows :=
  (mem_rows_iff hs).mpr ⟨hn, rfl⟩

/-- A handle in a child list is the handle of a node. -/
theorem isLive_child_of_mem (hs : s.trees.handles.Nodup) (hc : c ∈ s.children p) :
    s.IsLive c := by
  obtain ⟨n, hn⟩ := (isLive_of_mem_children hc).exists_node?
  exact isLive_iff.mpr (Forest.mem_handles_of_mem_children (row_mem hs hn) hc)

/-! ### The line upwards -/

theorem ancestry_eq_nil_of_not_isLive (hh : ¬ s.IsLive h) : s.ancestry h = [] := by
  rw [ancestry, Forest.ancestry?_eq_none_iff.mpr fun hmem => hh (isLive_iff.mpr hmem)]
  rfl

section Distinct

-- Of a well-formed sheet nothing but distinct handles is needed here.
variable (hs : s.trees.handles.Nodup)

include hs

/-- **The line from a child** is the line from its parent with the child in front. -/
theorem ancestry_of_mem_children (hc : c ∈ s.children p) : s.ancestry c = c :: s.ancestry p := by
  have hlive := isLive_of_mem_children hc
  obtain ⟨n, hn⟩ := hlive.exists_node?
  obtain ⟨line, hline⟩ := Forest.exists_ancestry?_of_mem (isLive_iff.mp hlive) []
  rw [ancestry, ancestry, Forest.ancestry?_of_mem_children hs (row_mem hs hn) hc, hline]
  rfl

theorem ancestry_of_mem_topHandles (hh : h ∈ s.trees.topHandles) : s.ancestry h = [h] := by
  rw [ancestry, Forest.ancestry?_of_mem_topHandles hs hh]
  rfl

/-- A node stands at the top or in a child list. -/
theorem mem_topHandles_or (hh : s.IsLive h) :
    h ∈ s.trees.topHandles ∨ ∃ p, h ∈ s.children p := by
  have hmem := s.trees.perm_handles.symm.subset (isLive_iff.mp hh)
  rcases List.mem_append.mp hmem with htop | hchild
  · exact .inl htop
  · obtain ⟨r, hr, hin⟩ := List.mem_flatMap.mp hchild
    exact .inr ⟨r.handle, ((mem_rows_iff hs).mp hr).2 ▸ hin⟩

theorem parent?_of_mem_topHandles (hh : h ∈ s.trees.topHandles) : s.parent? h = none := by
  rw [parent?, ancestry_of_mem_topHandles hs hh]
  rfl

/-- The line starts with the node itself. -/
theorem exists_ancestry_eq_cons (hh : s.IsLive h) : ∃ line, s.ancestry h = h :: line := by
  rcases mem_topHandles_or hs hh with htop | ⟨p, hp⟩
  · exact ⟨[], ancestry_of_mem_topHandles hs htop⟩
  · exact ⟨s.ancestry p, ancestry_of_mem_children hs hp⟩

/-- **Parents and child lists agree** if handles are distinct. -/
theorem parent?_eq_some_iff : s.parent? c = some p ↔ c ∈ s.children p := by
  have hparent {q : Handle} (hq : c ∈ s.children q) : s.parent? c = some q := by
    obtain ⟨line, hline⟩ := exists_ancestry_eq_cons hs (isLive_of_mem_children hq)
    rw [parent?, ancestry_of_mem_children hs hq, hline]
    rfl
  refine ⟨fun hc => ?_, hparent⟩
  have hlive : s.IsLive c := by
    by_contra hdead
    rw [parent?, ancestry_eq_nil_of_not_isLive hdead] at hc
    cases hc
  rcases mem_topHandles_or hs hlive with htop | ⟨q, hq⟩
  · rw [parent?_of_mem_topHandles hs htop] at hc
    cases hc
  · obtain rfl : q = p := Option.some.inj ((hparent hq).symm.trans hc)
    exact hq

end Distinct

namespace WellFormed

theorem ancestry_of_mem_children (hs : s.WellFormed) (hc : c ∈ s.children p) :
    s.ancestry c = c :: s.ancestry p :=
  Sheet.ancestry_of_mem_children hs.nodup hc

theorem ancestry_of_mem_topHandles (hs : s.WellFormed) (hh : h ∈ s.trees.topHandles) :
    s.ancestry h = [h] :=
  Sheet.ancestry_of_mem_topHandles hs.nodup hh

theorem mem_topHandles_or (hs : s.WellFormed) (hh : s.IsLive h) :
    h ∈ s.trees.topHandles ∨ ∃ p, h ∈ s.children p :=
  Sheet.mem_topHandles_or hs.nodup hh

/-- **Induction along the line**: what holds at the top, and of every child of a node of which it
holds, holds of all nodes. -/
theorem kin_induction (hs : s.WellFormed) {motive : (h : Handle) → s.IsLive h → Prop}
    (top : ∀ h (hh : s.IsLive h), h ∈ s.trees.topHandles → motive h hh)
    (child : ∀ p c (hp : s.IsLive p) (hc : s.IsLive c), c ∈ s.children p → motive p hp → motive c hc)
    (h : Handle) (hh : s.IsLive h) : motive h hh := by
  -- The line from the parent is shorter.
  induction hlength : (s.ancestry h).length using Nat.strong_induction_on generalizing h with
  | h length ih =>
    rcases hs.mem_topHandles_or hh with htop | ⟨p, hp⟩
    · exact top h hh htop
    · refine child p h (isLive_of_mem_children hp) hh hp
        (ih (s.ancestry p).length ?_ p (isLive_of_mem_children hp) rfl)
      rw [← hlength, hs.ancestry_of_mem_children hp]
      exact Nat.lt_succ_self _

theorem parent?_of_mem_topHandles (hs : s.WellFormed) (hh : h ∈ s.trees.topHandles) :
    s.parent? h = none :=
  Sheet.parent?_of_mem_topHandles hs.nodup hh

theorem exists_ancestry_eq_cons (hs : s.WellFormed) (hh : s.IsLive h) :
    ∃ line, s.ancestry h = h :: line :=
  Sheet.exists_ancestry_eq_cons hs.nodup hh

/-- **Parents and child lists agree.** -/
theorem parent?_eq_some_iff (hs : s.WellFormed) : s.parent? c = some p ↔ c ∈ s.children p :=
  Sheet.parent?_eq_some_iff hs.nodup

theorem isParent_iff (hs : s.WellFormed) : s.IsParent p c ↔ c ∈ s.children p :=
  hs.parent?_eq_some_iff

theorem not_isParent_of_mem_topHandles (hs : s.WellFormed) (hh : h ∈ s.trees.topHandles) :
    ¬ s.IsParent p h := by
  intro hp
  rw [IsParent, hs.parent?_of_mem_topHandles hh] at hp
  cases hp

/-- No chain of parents leads to the top from elsewhere. -/
theorem chain_iff_of_mem_topHandles (hs : s.WellFormed) (hh : h ∈ s.trees.topHandles) :
    ReflTransGen s.IsParent k h ↔ k = h := by
  constructor
  · intro hchain
    rcases hchain.cases_tail with heq | ⟨p, -, hp⟩
    · exact heq.symm
    · exact absurd hp (hs.not_isParent_of_mem_topHandles hh)
  · rintro rfl
    exact .refl

/-- **Chains to a child** go through its parent. -/
theorem chain_iff_of_mem_children (hs : s.WellFormed) (hc : c ∈ s.children p) :
    ReflTransGen s.IsParent k c ↔ k = c ∨ ReflTransGen s.IsParent k p := by
  have hparent : s.IsParent p c := hs.isParent_iff.mpr hc
  constructor
  · intro hchain
    rcases hchain.cases_tail with heq | ⟨q, hchain, hq⟩
    · exact .inl heq.symm
    · exact .inr (hq.unique hparent ▸ hchain)
  · rintro (rfl | hchain)
    · exact .refl
    · exact hchain.tail hparent

/-- A child list has each child once. -/
theorem nodup_children (hs : s.WellFormed) (p : Handle) : (s.children p).Nodup := by
  by_cases hlive : s.IsLive p
  · obtain ⟨n, hn⟩ := hlive.exists_node?
    have hnodup := s.trees.perm_handles.nodup_iff.mpr hs.nodup
    have hlists := (List.nodup_append'.mp hnodup).2.1
    exact (List.nodup_flatMap.mp hlists).1 _ (row_mem hs.nodup hn)
  · rw [children_of_not_isLive hlive]
    exact List.nodup_nil

theorem isLive_of_isParent (hs : s.WellFormed) (hc : s.IsParent p c) :
    s.IsLive p ∧ s.IsLive c := by
  rw [hs.isParent_iff] at hc
  exact ⟨isLive_of_mem_children hc, isLive_child_of_mem hs.nodup hc⟩

/-- **The line upwards** has the ancestors of a node, and the node. -/
theorem mem_ancestry_iff (hs : s.WellFormed) (hh : s.IsLive h) :
    k ∈ s.ancestry h ↔ ReflTransGen s.IsParent k h := by
  induction h, hh using hs.kin_induction with
  | top h _ htop =>
    rw [hs.ancestry_of_mem_topHandles htop, hs.chain_iff_of_mem_topHandles htop,
      List.mem_singleton]
  | child p c _ _ hc ih =>
    rw [hs.ancestry_of_mem_children hc, hs.chain_iff_of_mem_children hc, List.mem_cons, ih]

/-- Lines get longer downwards. -/
theorem length_ancestry_lt (hs : s.WellFormed) (hline : TransGen s.IsParent k h) :
    (s.ancestry k).length < (s.ancestry h).length := by
  have hstep {p c : Handle} (hc : s.IsParent p c) :
      (s.ancestry p).length < (s.ancestry c).length := by
    rw [hs.ancestry_of_mem_children (hs.isParent_iff.mp hc)]
    exact Nat.lt_succ_self _
  induction hline with
  | single hc => exact hstep hc
  | tail _ hc ih => exact ih.trans (hstep hc)

/-- **There is no cycle.** -/
theorem acyclic (hs : s.WellFormed) (h : Handle) : ¬ TransGen s.IsParent h h :=
  fun hcycle => lt_irrefl _ (hs.length_ancestry_lt hcycle)

theorem nodup_ancestry (hs : s.WellFormed) (hh : s.IsLive h) : (s.ancestry h).Nodup := by
  induction h, hh using hs.kin_induction with
  | top h _ htop =>
    rw [hs.ancestry_of_mem_topHandles htop]
    exact List.nodup_singleton h
  | child p c hp _ hc ih =>
    rw [hs.ancestry_of_mem_children hc]
    refine List.nodup_cons.mpr ⟨fun hmem => hs.acyclic c ?_, ih⟩
    -- A line from the child through its parent back to the child would be a cycle.
    have hline := (hs.mem_ancestry_iff hp).mp hmem
    exact TransGen.tail' hline (hs.isParent_iff.mpr hc)

/-! ### Subtrees -/

/-- The rows of a tree are the rows of its nodes. -/
theorem row_mem_rows_of_mem_handles (hs : s.WellFormed) (ht : s.find? h = some t)
    (hp : p ∈ t.handles) {n : Node} (hn : s.node? p = some n) :
    (⟨p, n, s.children p⟩ : Row) ∈ t.rows := by
  rw [← Tree.map_handle_rows] at hp
  obtain ⟨r, hr, rfl⟩ := List.mem_map.mp hp
  obtain ⟨hrow, hrows⟩ := Forest.rows_of_find? ht
  have hmem : r ∈ s.trees.rows := by
    rcases List.mem_cons.mp hr with rfl | hr
    · exact hrow
    · exact hrows hr
  obtain ⟨hnode, hchildren⟩ := (mem_rows_iff hs.nodup).mp hmem
  obtain rfl := Option.some.inj (hnode.symm.trans hn)
  rwa [hchildren]

/-- The children of the nodes of a tree are in the tree. -/
theorem mem_handles_of_mem_children (hs : s.WellFormed) (ht : s.find? h = some t)
    (hp : p ∈ t.handles) (hc : c ∈ s.children p) : c ∈ t.handles := by
  obtain ⟨n, hn⟩ := (isLive_of_mem_children hc).exists_node?
  have hin : c ∈ t.children.handles := by
    rcases List.mem_cons.mp (hs.row_mem_rows_of_mem_handles ht hp hn) with hrow | hrow
    · have htop : s.children p = t.children.topHandles := congrArg Row.children hrow
      exact Forest.mem_handles_of_mem_topHandles (htop ▸ hc)
    · exact Forest.mem_handles_of_mem_children hrow hc
  exact List.mem_cons_of_mem _ hin

/-- A node of a tree other than its top has its parent in the tree. -/
theorem exists_parent_mem_handles (hs : s.WellFormed) (ht : s.find? h = some t)
    (hc : c ∈ t.handles) (hne : c ≠ h) : ∃ p ∈ t.handles, c ∈ s.children p := by
  have hself : t.value.handle = h := Forest.handle_of_find? ht
  have hin : c ∈ t.children.handles :=
    (List.mem_cons.mp hc).resolve_left fun htop => hne (htop.trans hself)
  rcases List.mem_append.mp (t.children.perm_handles.symm.subset hin) with htop | hbelow
  · refine ⟨h, hself ▸ List.mem_cons_self, ?_⟩
    rwa [children_of_find? ht]
  · obtain ⟨r, hr, hcr⟩ := List.mem_flatMap.mp hbelow
    refine ⟨r.handle, List.mem_cons_of_mem _ (Forest.handle_mem_handles hr), ?_⟩
    rwa [((mem_rows_iff hs.nodup).mp ((Forest.rows_of_find? ht).2 hr)).2]

/-- **The tree of a node** has the descendants of the node, and the node. -/
theorem mem_handles_iff (hs : s.WellFormed) (ht : s.find? h = some t) (hk : s.IsLive k) :
    k ∈ t.handles ↔ ReflTransGen s.IsParent h k := by
  have hself : h ∈ t.handles := Forest.handle_of_find? ht ▸ List.mem_cons_self
  induction k, hk using hs.kin_induction with
  | top k _ htop =>
    rw [hs.chain_iff_of_mem_topHandles htop]
    constructor
    · intro hk
      by_contra hne
      obtain ⟨p, -, hp⟩ := hs.exists_parent_mem_handles ht hk (Ne.symm hne)
      exact hs.not_isParent_of_mem_topHandles htop (hs.isParent_iff.mpr hp)
    · rintro rfl
      exact hself
  | child p c _ _ hc ih =>
    rw [hs.chain_iff_of_mem_children hc]
    constructor
    · intro hin
      rw [or_iff_not_imp_left]
      intro hne
      obtain ⟨q, hq, hcq⟩ := hs.exists_parent_mem_handles ht hin (Ne.symm hne)
      have hsame : q = p := (hs.isParent_iff.mpr hcq).unique (hs.isParent_iff.mpr hc)
      exact ih.mp (hsame ▸ hq)
    · rintro (rfl | hchain)
      · exact hself
      · exact hs.mem_handles_of_mem_children ht (ih.mpr hchain) hc

end WellFormed

/-! ### Answers that agree -/

/-- **What the answers of a sheet have to do with each other.** -/
structure Consistent (s : Sheet) : Prop where
  /-- A child list has a node once if it is the list of the parent, and else not. -/
  count_children : ∀ p c, (s.children p).count c = if s.parent? c = some p then 1 else 0
  acyclic : ∀ h, ¬ TransGen s.IsParent h h
  live_root : s.IsLive Sheet.root
  parent_root : s.parent? Sheet.root = none
  /-- There is no other root. -/
  root_iff : ∀ h n, s.node? h = some n → (n.content = .root ↔ h = Sheet.root)
  container : ∀ p n, s.node? p = some n → s.children p ≠ [] → n.content.isContainer = true
  /-- An at-rule with children is written with a block. -/
  body : ∀ p n name params hasBody, s.node? p = some n →
    n.content = .atRule name params hasBody → s.children p ≠ [] → hasBody = true
  live : ∀ p c, s.IsParent p c → s.IsLive p ∧ s.IsLive c
  index : ∀ c i, s.index? c = some i ↔ ∃ p, s.parent? c = some p ∧ (s.children p)[i]? = some c
  attached : ∀ h, s.isAttached h = true ↔ ReflTransGen (fun p c => c ∈ s.children p) Sheet.root h
  /-- The proper ancestors are counted without the root. -/
  depth : ∀ h, s.isAttached h = true → h ≠ Sheet.root →
    s.depth h + 1 = {a | TransGen s.IsParent a h}.ncard

namespace WellFormed

theorem isLive_root (hs : s.WellFormed) : s.IsLive Sheet.root :=
  isLive_iff.mpr (Forest.mem_handles_of_mem_topHandles hs.root)

theorem isContainer (hs : s.WellFormed) {n : Node} (hn : s.node? p = some n)
    (hchildren : s.children p ≠ []) : n.content.isContainer = true := by
  rcases (hs.proper _ (row_mem hs.nodup hn)).body hchildren with hroot | hblock
  · change n.content = .root at hroot
    rw [hroot]
    rfl
  · revert hblock
    cases n.content <;> simp [Content.opensBlock, Content.isContainer]

theorem index?_eq_some_iff (hs : s.WellFormed) {i : Nat} :
    s.index? c = some i ↔ ∃ p, s.parent? c = some p ∧ (s.children p)[i]? = some c := by
  rw [index?, Option.bind_eq_some_iff]
  refine exists_congr fun p => and_congr_right fun _ => ?_
  rw [List.idxOf?_eq_some_iff, List.getElem?_eq_some_iff]
  constructor
  · rintro ⟨hi, heq, -⟩
    exact ⟨hi, heq⟩
  · rintro ⟨hi, heq⟩
    -- A child has no earlier place, for it is in the list once.
    refine ⟨hi, heq, fun j hj hsame => ?_⟩
    have hindex := ((hs.nodup_children p).getElem_inj_iff).mp (hsame.trans heq.symm)
    omega

/-- **Attached nodes** are those that child lists lead to. -/
theorem isAttached_iff (hs : s.WellFormed) :
    s.isAttached h = true ↔ ReflTransGen s.IsParent Sheet.root h := by
  rw [isAttached, beq_iff_eq]
  by_cases hh : s.IsLive h
  · induction h, hh using hs.kin_induction with
    | top h _ htop =>
      rw [hs.ancestry_of_mem_topHandles htop, hs.chain_iff_of_mem_topHandles htop,
        List.getLast?_singleton, Option.some_inj, eq_comm]
    | child p c hp _ hc ih =>
      obtain ⟨line, hline⟩ := hs.exists_ancestry_eq_cons hp
      have hne : Sheet.root ≠ c := by
        rintro rfl
        exact hs.not_isParent_of_mem_topHandles hs.root (hs.isParent_iff.mpr hc)
      rw [hs.ancestry_of_mem_children hc, hline, List.getLast?_cons_cons, ← hline, ih,
        hs.chain_iff_of_mem_children hc, or_iff_right hne]
  · rw [ancestry_eq_nil_of_not_isLive hh]
    constructor
    · intro hlast
      cases hlast
    · intro hline
      rcases hline.cases_tail with rfl | ⟨p, -, hp⟩
      · exact absurd hs.isLive_root hh
      · exact absurd (hs.isLive_of_isParent hp).2 hh

theorem ncard_ancestors (hs : s.WellFormed) (hh : s.IsLive h) :
    {a | TransGen s.IsParent a h}.ncard + 1 = (s.ancestry h).length := by
  obtain ⟨line, hline⟩ := hs.exists_ancestry_eq_cons hh
  have hnodup := hs.nodup_ancestry hh
  rw [hline, List.nodup_cons] at hnodup
  have hset : {a | TransGen s.IsParent a h} = (line.toFinset : Set Handle) := by
    ext a
    rw [Set.mem_ofPred_eq, Finset.mem_coe, List.mem_toFinset]
    have hmem := hs.mem_ancestry_iff (k := a) hh
    rw [hline, List.mem_cons, Relation.reflTransGen_iff_eq_or_transGen] at hmem
    constructor
    · intro habove
      refine (hmem.mpr (.inr habove)).resolve_left fun hself => ?_
      exact hs.acyclic h (hself ▸ habove)
    · intro hin
      refine (hmem.mp (.inr hin)).resolve_left fun hself => ?_
      exact hnodup.1 (hself ▸ hin)
  rw [hset, Set.ncard_coe_finset, List.toFinset_card_of_nodup hnodup.2, hline, List.length_cons]

/-- **The answers of a well-formed sheet agree.** -/
theorem consistent (hs : s.WellFormed) : s.Consistent where
  count_children p c := by
    rw [(hs.nodup_children p).count]
    simp only [hs.parent?_eq_some_iff]
  acyclic := hs.acyclic
  live_root := hs.isLive_root
  parent_root := hs.parent?_of_mem_topHandles hs.root
  root_iff h n hn := (hs.proper _ (row_mem hs.nodup hn)).root
  container p n hn hchildren := hs.isContainer hn hchildren
  body p n name params hasBody hn hcontent hchildren := by
    rcases (hs.proper _ (row_mem hs.nodup hn)).body hchildren with hroot | hblock
    · cases hcontent.symm.trans hroot
    · change n.content.opensBlock = true at hblock
      rwa [hcontent] at hblock
  live p c hc := hs.isLive_of_isParent hc
  index c i := hs.index?_eq_some_iff
  attached h := by
    have hparent : s.IsParent = fun p c => c ∈ s.children p :=
      funext₂ fun p c => propext hs.isParent_iff
    rw [hs.isAttached_iff, hparent]
  depth h hattached hroot := by
    have hline := hs.isAttached_iff.mp hattached
    rcases Relation.reflTransGen_iff_eq_or_transGen.mp hline with hself | hline
    · exact absurd hself hroot
    · -- The line to an attached node has the root and the node.
      have hlong := hs.length_ancestry_lt hline
      rw [hs.ancestry_of_mem_topHandles hs.root, List.length_singleton] at hlong
      have hlive : s.IsLive h := by
        by_contra hdead
        rw [ancestry_eq_nil_of_not_isLive hdead] at hlong
        cases hlong
      have hcount := hs.ncard_ancestors hlive
      rw [Sheet.depth]
      omega

end WellFormed

end Sheet

/-! ### Sheets that were read -/

/-- **Rows of trees that a parse makes** are proper, under handles that are not the one of the
root. -/
theorem Forest.Made.proper_label {f : Forest Node} (hf : f.Made) {first : Handle}
    (hfirst : first ≠ Sheet.root) : ∀ r ∈ (f.label first).rows, r.Proper := by
  induction f generalizing first with
  | nil =>
    intro r hr
    cases hr
  | cons n children next ihChildren ihNext =>
    have hn : Tree.Made ⟨n, children⟩ := hf _ List.mem_cons_self
    have hchildren : children.Made := fun t ht =>
      hf t (List.mem_cons_of_mem _ (List.mem_append_left _ ht))
    have hnext : next.Made := fun t ht =>
      hf t (List.mem_cons_of_mem _ (List.mem_append_right _ ht))
    intro r hr
    rw [label, rows, List.mem_cons, List.mem_append] at hr
    rcases hr with rfl | hr | hr
    · constructor
      · exact iff_of_false hn.ne_root hfirst
      · intro hbelow
        right
        by_contra hblock
        have hnil : children = .nil := hn.leaf (Bool.eq_false_iff.mpr hblock)
        rw [hnil] at hbelow
        exact hbelow rfl
    · exact ihChildren hchildren (Nat.succ_ne_zero _) r hr
    · refine ihNext hnext ?_ r hr
      rw [Nat.add_right_comm]
      exact Nat.succ_ne_zero _

namespace Sheet

variable {s s' : Sheet}

theorem wellFormed_ofTree {t : Tree Node} (hroot : t.value.content = .root)
    (hmade : t.children.Made) : (Sheet.ofTree t).WellFormed where
  nodup := nodup_ofTree t
  fresh h hh := by
    rw [Forest.handles, ofTree, Forest.map_handle_label, List.mem_range'_1] at hh
    exact hh.2.trans_eq (by simp [ofTree, Forest.size, Sheet.root])
  root := List.mem_cons_self
  proper r hr := by
    rw [ofTree, Forest.label, Forest.rows, List.mem_cons, List.mem_append] at hr
    rcases hr with rfl | hr | hr
    · exact ⟨iff_of_true hroot rfl, fun _ => .inl hroot⟩
    · exact hmade.proper_label (Nat.succ_ne_zero _) r hr
    · cases hr

/-- **What was read is well-formed.** -/
theorem wellFormed_of_parse {source : Source} {lenient : Bool} {t : Tree Node}
    (h : parse source lenient = .ok t) : (Sheet.ofTree t).WellFormed := by
  obtain ⟨hroot, -, hmade⟩ := made_of_parse h
  exact wellFormed_ofTree hroot hmade

theorem wellFormed_empty : Sheet.empty.WellFormed :=
  wellFormed_ofTree rfl fun t ht => by cases ht

/-- **A new node** keeps a sheet well-formed. -/
theorem WellFormed.create (hs : s.WellFormed) {content : Content} (hcontent : content ≠ .root) :
    (s.create content).2.WellFormed where
  nodup := by
    rw [Sheet.create, Forest.handles_append]
    refine List.nodup_append'.mpr ⟨hs.nodup, List.nodup_singleton _, fun h hh hnew => ?_⟩
    rw [Forest.handles_cons] at hnew
    obtain rfl : h = s.fresh := by simpa using hnew
    exact lt_irrefl _ (hs.fresh _ hh)
  fresh h hh := by
    rw [Sheet.create, Forest.handles_append, List.mem_append] at hh
    rcases hh with hh | hnew
    · exact (hs.fresh h hh).trans (Nat.lt_succ_self _)
    · rw [Forest.handles_cons] at hnew
      obtain rfl : h = s.fresh := by simpa using hnew
      exact Nat.lt_succ_self _
  root := by
    rw [Sheet.create, Forest.topHandles_append]
    exact List.mem_append_left _ hs.root
  proper r hr := by
    rw [Sheet.create, Forest.rows_append, List.mem_append] at hr
    rcases hr with hr | hnew
    · exact hs.proper r hr
    · obtain rfl : r = ⟨s.fresh, { content := content }, []⟩ := by
        simpa [Forest.rows, Tree.row] using hnew
      -- The root was there before.
      have hroot := hs.fresh _ (Forest.mem_handles_of_mem_topHandles hs.root)
      exact ⟨iff_of_false hcontent hroot.ne', fun hchildren => absurd rfl hchildren⟩

end Sheet

end LosslessCss
