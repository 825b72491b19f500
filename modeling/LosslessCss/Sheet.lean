import LosslessCss.Node
import LosslessCss.Tree.Forest

/-!
# Style sheets under a name for each node

To edit a sheet one must be able to say *which* node is meant.  A `Sheet` gives each node a handle
that it keeps for life and that no other node ever gets.  The nodes form one forest: the tree of the
root comes first, and behind it stand the trees that are attached nowhere, such as nodes just
created or taken out.  A node that was removed is in no tree.

## Main Definitions

* `Handle`, `Entry`, `Sheet`
* `Sheet.ofTree`, `Sheet.empty` : handles in document order, starting with 0 for the root
* `Sheet.find?`, `Sheet.parent?`, `Sheet.children`, `Sheet.index?`, `Sheet.ancestry`
* `Sheet.isAttached`, `Sheet.depth`
* `Sheet.tree?`, `Sheet.attachedTree` : subtrees without handles
* `Sheet.create`, `Sheet.update`

## Design Notes

There are no parent links beside the child lists, so the two cannot disagree, and no cycle can be
written down.  The parent of a node is found by looking for the node.
-/

namespace LosslessCss

/-- The name of a node, good for the life of a sheet. -/
abbrev Handle := Nat

/-- A node under its handle. -/
structure Entry where
  handle : Handle
  node : Node
  deriving DecidableEq, Repr

namespace Forest

/-! ### Looking for handles -/

/-- The tree of the entry with the given handle. -/
def find? (h : Handle) : Forest Entry → Option (Tree Entry)
  | nil => none
  | cons e children next =>
    if e.handle = h then some ⟨e, children⟩
    else
      match children.find? h with
      | some t => some t
      | none => next.find? h

/-- The handle, its parent, and so on up to the top, where `above` is the same list for what stands
above the forest. -/
def ancestry? (h : Handle) (above : List Handle) : Forest Entry → Option (List Handle)
  | nil => none
  | cons e children next =>
    if e.handle = h then some (h :: above)
    else
      match children.ancestry? h (e.handle :: above) with
      | some line => some line
      | none => next.ancestry? h above

/-- The forest without the tree of the entry with the given handle. -/
def erase (h : Handle) : Forest Entry → Forest Entry
  | nil => nil
  | cons e children next =>
    if e.handle = h then next else cons e (children.erase h) (next.erase h)

/-- The forest with a changed node under the given handle. -/
def update (h : Handle) (change : Node → Node) : Forest Entry → Forest Entry
  | nil => nil
  | cons e children next =>
    if e.handle = h then cons { e with node := change e.node } children next
    else cons e (children.update h change) (next.update h change)

/-- Handles in document order, starting with `first`. -/
def label (first : Handle) : Forest Node → Forest Entry
  | nil => nil
  | cons n children next =>
    cons ⟨first, n⟩ (children.label (first + 1)) (next.label (first + 1 + children.size))

end Forest

/-- A sheet with all its trees, attached or not. -/
structure Sheet where
  trees : Forest Entry
  /-- The handle of the next node to be created. -/
  fresh : Handle
  deriving DecidableEq, Repr

namespace Sheet

/-- The handle of the root. -/
def root : Handle := 0

/-- The sheet of a tree. -/
def ofTree (t : Tree Node) : Sheet where
  trees := (Forest.cons t.value t.children .nil).label root
  fresh := t.children.size + 1

/-- A sheet with nothing but its root. -/
def empty : Sheet := ofTree ⟨{ content := .root }, .nil⟩

/-! ### Looking around -/

/-- The tree of a node; none if the node was removed. -/
def find? (s : Sheet) (h : Handle) : Option (Tree Entry) := s.trees.find? h

/-- The node under a handle. -/
def node? (s : Sheet) (h : Handle) : Option Node := (s.find? h).map (·.value.node)

/-- The node, its parent, and so on up to the top; nothing for a node that was removed. -/
def ancestry (s : Sheet) (h : Handle) : List Handle := (s.trees.ancestry? h []).getD []

/-- The parent of a node, if it has one. -/
def parent? (s : Sheet) (h : Handle) : Option Handle := (s.ancestry h)[1]?

/-- The children of a node in order. -/
def children (s : Sheet) (h : Handle) : List Handle :=
  ((s.find? h).map fun t => t.children.tops.map Entry.handle).getD []

/-- The place of a node among the children of its parent. -/
def index? (s : Sheet) (h : Handle) : Option Nat :=
  (s.parent? h).bind fun parent => (s.children parent).idxOf? h

/-- The node stands below the root, or is the root. -/
def isAttached (s : Sheet) (h : Handle) : Bool := (s.ancestry h).getLast? == some root

/-- The depth of a node: 0 for the children of the root and for all that has no parent. -/
def depth (s : Sheet) (h : Handle) : Nat := (s.ancestry h).length - 2

/-- The subtree of a node, without handles. -/
def tree? (s : Sheet) (h : Handle) : Option (Tree Node) := (s.find? h).map (Tree.map Entry.node)

/-- What is attached to the root, without handles. -/
def attachedTree (s : Sheet) : Tree Node := (s.tree? root).getD ⟨{ content := .root }, .nil⟩

/-! ### Nodes -/

/-- A new node that is attached nowhere. -/
def create (s : Sheet) (content : Content) : Handle × Sheet :=
  (s.fresh,
    { trees := s.trees ++ .cons ⟨s.fresh, { content := content }⟩ .nil .nil, fresh := s.fresh + 1 })

/-- A changed node under the same handle.  Without a node there is nothing to change. -/
def update (s : Sheet) (h : Handle) (change : Node → Node) : Sheet :=
  { s with trees := s.trees.update h change }

end Sheet

end LosslessCss
