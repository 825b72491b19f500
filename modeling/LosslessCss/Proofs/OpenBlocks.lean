import LosslessCss.Parse.Guarded
import LosslessCss.Proofs.Kinship

/-!
# Open blocks in a sheet

While a source is read, each open block is the last child of the block around it.  So what has been
read is one forest (`Parse.openForest`), in which the open blocks form a line from the root to the
current block.  When handles are given in document order, the nodes of this line have handles that
depend only on how much was read in front of them (`Parse.handleIn`): what is put into the current
block leaves them as they are, and the next handle is the one of the next node.

An edit of the current block is thus an edit of its last entry in the list of open blocks, and a block
that is opened or closed needs no edit at all: a block without children that is open and one that is
closed make the same forest (`Parse.openForest_close`).

## Main Definitions

* `Parse.openForest` : what has been read, as a forest
* `Parse.handleIn`, `Parse.openBlocks` : the handles of open blocks

## Main Statements

* `Parse.insert_openForest`, `Parse.update_openForest` : edits of the current block
* `Parse.find?_openForest`, `Parse.ancestry?_openForest` : what is found under its handle
* `Parse.openForest_close`
-/

namespace LosslessCss

/-! ### Labels -/

namespace Forest

@[simp]
theorem size_append {α : Type} (f g : Forest α) : (f ++ g).size = f.size + g.size := by
  rw [← length_preorder, preorder_append, List.length_append, length_preorder, length_preorder]

theorem label_append (first : Nat) (f g : Forest Node) :
    (f ++ g).label first = f.label first ++ g.label (first + f.size) := by
  induction f generalizing first with
  | nil => rfl
  | cons n children next _ ih =>
    have hfirst : first + 1 + children.size + next.size =
        first + (children.size + next.size + 1) := by
      rw [Nat.add_assoc, Nat.add_assoc, Nat.add_comm 1, Nat.add_assoc]
    rw [cons_append, label, label, ih, cons_append, size, hfirst]

/-- Handles are given from the first one on. -/
theorem not_mem_handles_label {first h : Nat} {f : Forest Node} (hh : first + f.size ≤ h) :
    h ∉ (f.label first).handles := by
  rw [handles, map_handle_label, List.mem_range'_1]
  omega

theorem insert_append (place : Place) (t : Tree Entry) (f g : Forest Entry)
    (hf : place.anchor ∉ f.handles) : (f ++ g).insert place t = f ++ g.insert place t := by
  induction f with
  | nil => rfl
  | cons e children next _ ih =>
    rw [handles_cons, List.mem_cons, List.mem_append, not_or, not_or] at hf
    rw [cons_append, insert_cons_of_ne (Ne.symm hf.1), insert_of_not_mem hf.2.1, ih hf.2.2]
    rfl

theorem update_append {h : Handle} (change : Node → Node) (f g : Forest Entry)
    (hf : h ∉ f.handles) : (f ++ g).update h change = f ++ g.update h change := by
  induction f with
  | nil => rfl
  | cons e children next _ ih =>
    rw [handles_cons, List.mem_cons, List.mem_append, not_or, not_or] at hf
    rw [cons_append, update, if_neg (Ne.symm hf.1), update_of_not_mem hf.2.1, ih hf.2.2]
    rfl

theorem ancestry?_append {h : Handle} (above : List Handle) (f g : Forest Entry)
    (hf : h ∉ f.handles) : Forest.ancestry? h above (f ++ g) = g.ancestry? h above := by
  induction f with
  | nil => rfl
  | cons e children next _ ih =>
    rw [handles_cons, List.mem_cons, List.mem_append, not_or, not_or] at hf
    rw [cons_append, ancestry?, if_neg (Ne.symm hf.1), ancestry?_eq_none_iff.mpr hf.2.1]
    exact ih hf.2.2

end Forest

namespace Parse

/-! ### Open blocks -/

/-- **What has been read**, given the open blocks from the outside in: each is the last child of the
one around it. -/
def openForest : List Block → Forest Node
  | [] => .nil
  | b :: inner => .cons b.node (.ofLatestFirst b.children ++ openForest inner) .nil

/-- The handle of a node that comes behind all that was read in the given blocks. -/
def handleIn (first : Nat) : List Block → Nat
  | [] => first
  | b :: inner => handleIn (first + 1 + (Forest.ofLatestFirst b.children).size) inner

/-- The open blocks with the handles of their nodes. -/
def openBlocks (first : Nat) : List Block → List Guarded.OpenBlock
  | [] => []
  | b :: inner =>
    ⟨first, b.start⟩ :: openBlocks (first + 1 + (Forest.ofLatestFirst b.children).size) inner

variable {first : Nat} {bs inner : List Block} {b : Block}

/-- The next handle is the one behind all handles that were given. -/
theorem handleIn_eq (first : Nat) (bs : List Block) :
    handleIn first bs = first + (openForest bs).size := by
  induction bs generalizing first with
  | nil => rfl
  | cons b inner ih =>
    rw [handleIn, ih, openForest, Forest.size, Forest.size_append, Forest.size]
    omega

theorem size_openForest_append (bs cs : List Block) :
    (openForest (bs ++ cs)).size = (openForest bs).size + (openForest cs).size := by
  induction bs with
  | nil => simp [openForest, Forest.size]
  | cons b inner ih =>
    simp only [List.cons_append, openForest, Forest.size, Forest.size_append, ih]
    omega

theorem openBlocks_append (first : Nat) (bs : List Block) (b : Block) :
    openBlocks first (bs ++ [b]) = openBlocks first bs ++ [⟨handleIn first bs, b.start⟩] := by
  induction bs generalizing first with
  | nil => rfl
  | cons c inner ih => rw [List.cons_append, openBlocks, ih, openBlocks, handleIn, List.cons_append]

/-- **A closed block is the last child of the block around it**, as it was before. -/
theorem openForest_close (bs : List Block) (parent b : Block) :
    openForest (bs ++ [parent, b]) = openForest (bs ++ [{ parent with
      children := ⟨b.node, .ofLatestFirst b.children⟩ :: parent.children }]) := by
  induction bs with
  | nil => simp [openForest]
  | cons c inner ih => rw [List.cons_append, openForest, ih, List.cons_append, openForest]

/-! ### The current block -/

/-- Behind the children of an outer block the handles are those of the blocks in it. -/
theorem handleIn_not_mem (first : Nat) (b : Block) (inner : List Block) :
    first ≠ handleIn first (b :: inner) ∧ handleIn first (b :: inner) ∉
      ((Forest.ofLatestFirst b.children).label (first + 1)).handles := by
  rw [handleIn, handleIn_eq]
  exact ⟨by omega, Forest.not_mem_handles_label (by omega)⟩

/-- **A node is put into the current block.**  Its handle is the next one. -/
theorem insert_openForest (first : Nat) (bs : List Block) (b : Block) (n : Node) :
    ((openForest (bs ++ [b])).label first).insert (.lastIn (handleIn first bs))
        ⟨⟨first + (openForest (bs ++ [b])).size, n⟩, .nil⟩ =
      (openForest (bs ++ [{ b with children := ⟨n, .nil⟩ :: b.children }])).label first := by
  induction bs generalizing first with
  | nil =>
    have hnext : first + 1 + (Forest.ofLatestFirst b.children).size =
        first + (openForest [b]).size := handleIn_eq first [b]
    simp only [List.nil_append, openForest, Forest.append_nil, Forest.ofLatestFirst_cons,
      Forest.label, Forest.label_append, Forest.insert, handleIn, Place.anchor, if_true, hnext]
  | cons c inner ih =>
    obtain ⟨hne, hout⟩ := handleIn_not_mem first c inner
    have hsize : first + (openForest (c :: inner ++ [b])).size =
        first + 1 + (Forest.ofLatestFirst c.children).size + (openForest (inner ++ [b])).size := by
      rw [List.cons_append, ← handleIn_eq, handleIn, handleIn_eq]
    rw [hsize]
    simp only [List.cons_append, openForest, Forest.label, Forest.label_append]
    rw [Forest.insert_cons_of_ne hne, Forest.insert_append _ _ _ _ hout, handleIn, ih]
    rfl

/-- **The node of the current block is changed.** -/
theorem update_openForest (first : Nat) (bs : List Block) (b : Block) (change : Node → Node) :
    ((openForest (bs ++ [b])).label first).update (handleIn first bs) change =
      (openForest (bs ++ [{ b with node := change b.node }])).label first := by
  induction bs generalizing first with
  | nil =>
    simp only [List.nil_append, openForest, Forest.append_nil, Forest.label, Forest.update, handleIn,
      if_true]
  | cons c inner ih =>
    obtain ⟨hne, hout⟩ := handleIn_not_mem first c inner
    simp only [List.cons_append, openForest, Forest.label, Forest.label_append]
    rw [Forest.update, if_neg hne, Forest.update_append _ _ _ hout, handleIn, ih]
    rfl

/-- **What is found under the handle of the current block**: its node and what was read in it. -/
theorem find?_openForest (first : Nat) (bs : List Block) (b : Block) :
    ((openForest (bs ++ [b])).label first).find? (handleIn first bs) =
      some ⟨⟨handleIn first bs, b.node⟩,
        (Forest.ofLatestFirst b.children).label (handleIn first bs + 1)⟩ := by
  induction bs generalizing first with
  | nil =>
    simp only [List.nil_append, openForest, Forest.append_nil, Forest.label, Forest.find?, handleIn,
      if_true]
  | cons c inner ih =>
    obtain ⟨hne, hout⟩ := handleIn_not_mem first c inner
    simp only [List.cons_append, openForest, Forest.label, Forest.label_append]
    rw [Forest.find?, if_neg hne, Forest.find?_append_of_not_mem hout, handleIn, ih]

/-- **The line upwards from the current block** has the handles of all open blocks. -/
theorem ancestry?_openForest (first : Nat) (bs : List Block) (b : Block) (above : List Handle) :
    Forest.ancestry? (handleIn first bs) above ((openForest (bs ++ [b])).label first) =
      some (((openBlocks first (bs ++ [b])).map Guarded.OpenBlock.node).reverse ++ above) := by
  induction bs generalizing first above with
  | nil =>
    simp only [List.nil_append, openForest, Forest.append_nil, Forest.label, Forest.ancestry?,
      handleIn, if_true]
    rfl
  | cons c inner ih =>
    obtain ⟨hne, hout⟩ := handleIn_not_mem first c inner
    simp only [List.cons_append, openForest, Forest.label, Forest.label_append]
    rw [Forest.ancestry?, if_neg hne, Forest.ancestry?_append _ _ _ hout, handleIn, ih, openBlocks,
      List.map_cons, List.reverse_cons, List.append_assoc]
    rfl

end Parse

end LosslessCss
