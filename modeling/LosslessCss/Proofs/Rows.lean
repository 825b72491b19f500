import LosslessCss.Proofs.Moves
import Mathlib

/-!
# A forest as a list of rows

What can be asked of a node under its handle is the node itself and the handles of its children.
Both stand in one row for each node (`Forest.rows`), and if no two nodes have the same handle, the
rows say all there is to say (`Forest.mem_rows_iff`).

The operations on forests are recursions into the depth, but on rows they are simple.  Taking a tree
out removes its rows and the handle from the one child list that has it (`Forest.exists_rows_erase`).
Putting a tree down adds its rows and the handle to one child list (`Forest.rows_insert`).  Changing
a node changes one row (`Forest.rows_update`).  The order of the rows is of no importance, so these
are permutations.

## Main Definitions

* `Forest.handles`, `Forest.topHandles` : all handles in document order, and those at the top
* `Row`, `Forest.rows`
* `Place.among`, `Place.Arranges` : a child list with one more handle at a place

## Main Statements

* `Forest.perm_handles` : each handle is at the top or in one child list, once
* `Forest.mem_rows_iff`
* `Forest.exists_rows_erase`, `Forest.rows_insert`, `Forest.rows_update`
* `Forest.ancestry?_of_mem_children` : the line upwards from a child goes through its parent
-/

namespace LosslessCss

/-- **What can be seen of a node**: its handle, the node, and the handles of its children. -/
structure Row where
  handle : Handle
  node : Node
  children : List Handle

namespace Forest

variable {f g : Forest Entry} {t : Tree Entry} {h : Handle}

/-! ### Handles -/

/-- All handles of a forest, in document order. -/
def handles (f : Forest Entry) : List Handle := f.preorder.map Entry.handle

/-- The handles at the top of a forest, in order. -/
def topHandles (f : Forest Entry) : List Handle := f.tops.map Entry.handle

@[simp]
theorem handles_nil : (nil : Forest Entry).handles = [] := rfl

@[simp]
theorem handles_cons (e : Entry) (children next : Forest Entry) :
    (cons e children next).handles = e.handle :: (children.handles ++ next.handles) := by
  simp [handles, preorder]

@[simp]
theorem handles_append (f g : Forest Entry) : (f ++ g).handles = f.handles ++ g.handles := by
  simp [handles]

@[simp]
theorem topHandles_nil : (nil : Forest Entry).topHandles = [] := rfl

@[simp]
theorem topHandles_cons (e : Entry) (children next : Forest Entry) :
    (cons e children next).topHandles = e.handle :: next.topHandles := rfl

@[simp]
theorem topHandles_append (f g : Forest Entry) :
    (f ++ g).topHandles = f.topHandles ++ g.topHandles := by
  induction f with
  | nil => rfl
  | cons e children next _ ih => simp [ih]

theorem topHandles_eq_nil_iff : f.topHandles = [] ↔ f = nil := by
  cases f <;> simp

/-- **Handles are distinct** in a forest exactly if they are in its parts, and the parts have none in
common. -/
theorem nodup_cons_iff {e : Entry} {children next : Forest Entry} :
    (cons e children next).handles.Nodup ↔
      (e.handle ∉ children.handles ∧ e.handle ∉ next.handles) ∧
        children.handles.Nodup ∧ next.handles.Nodup ∧
          ∀ h ∈ children.handles, h ∉ next.handles := by
  rw [handles_cons, List.nodup_cons, List.mem_append, not_or, List.nodup_append']
  rfl

end Forest

/-! ### Rows -/

/-- The row of the node at the top of a tree. -/
def Tree.row (t : Tree Entry) : Row := ⟨t.value.handle, t.value.node, t.children.topHandles⟩

namespace Forest

variable {f g : Forest Entry} {t : Tree Entry} {h : Handle}

/-- The rows of all nodes of a forest, in document order. -/
def rows : Forest Entry → List Row
  | nil => []
  | cons e children next => Tree.row ⟨e, children⟩ :: (children.rows ++ next.rows)

@[simp]
theorem rows_append (f g : Forest Entry) : (f ++ g).rows = f.rows ++ g.rows := by
  induction f with
  | nil => rfl
  | cons e children next _ ih => simp [rows, ih]

theorem map_handle_rows (f : Forest Entry) : f.rows.map Row.handle = f.handles := by
  induction f with
  | nil => rfl
  | cons e children next ihChildren ihNext =>
    simp [rows, Tree.row, ihChildren, ihNext]

theorem handle_mem_handles {r : Row} (hr : r ∈ f.rows) : r.handle ∈ f.handles := by
  rw [← map_handle_rows]
  exact List.mem_map_of_mem hr

/-- **Each handle is at the top or in one child list**, once. -/
theorem perm_handles (f : Forest Entry) :
    (f.topHandles ++ f.rows.flatMap Row.children).Perm f.handles := by
  induction f with
  | nil => exact .nil
  | cons e children next ihChildren ihNext =>
    rw [rows, List.flatMap_cons, List.flatMap_append, topHandles_cons, handles_cons,
      List.cons_append]
    refine List.Perm.cons _ ?_
    -- The siblings change places with what is below the first node.
    have hswap : List.Perm (next.topHandles ++ (children.topHandles ++
          (children.rows.flatMap Row.children ++ next.rows.flatMap Row.children)))
        ((children.topHandles ++ children.rows.flatMap Row.children) ++
          (next.topHandles ++ next.rows.flatMap Row.children)) := by
      rw [← List.append_assoc children.topHandles]
      exact List.perm_append_comm_assoc _ _ _
    exact hswap.trans (ihChildren.append ihNext)

/-- What stands in a child list is a handle of the forest. -/
theorem mem_handles_of_mem_children {r : Row} (hr : r ∈ f.rows) {c : Handle}
    (hc : c ∈ r.children) : c ∈ f.handles :=
  f.perm_handles.subset (List.mem_append_right _ (List.mem_flatMap.mpr ⟨r, hr, hc⟩))

theorem mem_handles_of_mem_topHandles (hh : h ∈ f.topHandles) : h ∈ f.handles :=
  f.perm_handles.subset (List.mem_append_left _ hh)

/-! ### Looking for handles -/

theorem handle_of_find? (ht : f.find? h = some t) : t.value.handle = h := by
  induction f with
  | nil => cases ht
  | cons e children next ihChildren ihNext =>
    rw [find?] at ht
    split at ht
    · next hhandle =>
      cases ht
      exact hhandle
    · split at ht
      · next hfound =>
        cases ht
        exact ihChildren hfound
      · exact ihNext ht

theorem find?_eq_none_iff : f.find? h = none ↔ h ∉ f.handles := by
  induction f with
  | nil => simp [find?]
  | cons e children next ihChildren ihNext =>
    rw [find?, handles_cons, List.mem_cons, List.mem_append, not_or, not_or, ← ihChildren, ← ihNext]
    split
    · next hhandle => simp [hhandle]
    · next hhandle =>
      cases hfound : children.find? h with
      | none => simp [Ne.symm hhandle]
      | some u => simp

theorem find?_append_of_not_mem (hh : h ∉ f.handles) : (f ++ g).find? h = g.find? h := by
  induction f with
  | nil => rfl
  | cons e children next _ ih =>
    rw [handles_cons, List.mem_cons, List.mem_append, not_or, not_or] at hh
    rw [cons_append, find?, if_neg (Ne.symm hh.1), find?_eq_none_iff.mpr hh.2.1]
    exact ih hh.2.2

theorem exists_find?_of_mem (hh : h ∈ f.handles) : ∃ t, f.find? h = some t := by
  cases hfound : f.find? h with
  | none => exact absurd hh (find?_eq_none_iff.mp hfound)
  | some t => exact ⟨t, rfl⟩

/-- The rows of what is found are rows of the forest. -/
theorem rows_of_find? (ht : f.find? h = some t) : t.row ∈ f.rows ∧ t.children.rows ⊆ f.rows := by
  induction f with
  | nil => cases ht
  | cons e children next ihChildren ihNext =>
    rw [find?] at ht
    split at ht
    · cases ht
      refine ⟨List.mem_cons_self, fun r hr => ?_⟩
      exact List.mem_cons_of_mem _ (List.mem_append_left _ hr)
    · split at ht
      · next hfound =>
        cases ht
        obtain ⟨hrow, hrows⟩ := ihChildren hfound
        refine ⟨List.mem_cons_of_mem _ (List.mem_append_left _ hrow), fun r hr => ?_⟩
        exact List.mem_cons_of_mem _ (List.mem_append_left _ (hrows hr))
      · obtain ⟨hrow, hrows⟩ := ihNext ht
        refine ⟨List.mem_cons_of_mem _ (List.mem_append_right _ hrow), fun r hr => ?_⟩
        exact List.mem_cons_of_mem _ (List.mem_append_right _ (hrows hr))

/-- **The rows say what is found**, if handles are distinct. -/
theorem mem_rows_iff (hf : f.handles.Nodup) {r : Row} :
    r ∈ f.rows ↔ ∃ t, f.find? r.handle = some t ∧ t.row = r := by
  constructor
  · intro hr
    obtain ⟨t, ht⟩ := exists_find?_of_mem (handle_mem_handles hr)
    refine ⟨t, ht, ?_⟩
    rw [← map_handle_rows] at hf
    exact List.inj_on_of_nodup_map hf (rows_of_find? ht).1 hr (handle_of_find? ht)
  · rintro ⟨t, ht, rfl⟩
    exact (rows_of_find? ht).1

end Forest

/-! ### Taking a tree out -/

/-- The rows of all nodes of a tree. -/
def Tree.rows (t : Tree Entry) : List Row := t.row :: t.children.rows

/-- All handles of a tree, in document order. -/
def Tree.handles (t : Tree Entry) : List Handle := t.value.handle :: t.children.handles

theorem Tree.map_handle_rows (t : Tree Entry) : t.rows.map Row.handle = t.handles := by
  rw [rows, handles, List.map_cons, Forest.map_handle_rows]
  rfl

/-- A tree that stands alone. -/
theorem Forest.rows_alone (t : Tree Entry) : (cons t.value t.children nil).rows = t.rows := by
  simp [rows, Tree.rows]

/-- A row without a handle among the children. -/
def Row.without (h : Handle) (r : Row) : Row :=
  { r with children := r.children.erase h }

theorem Row.without_of_not_mem {h : Handle} {r : Row} (hr : h ∉ r.children) : r.without h = r := by
  rw [without, List.erase_of_not_mem hr]

namespace Forest

variable {f : Forest Entry} {t : Tree Entry} {h : Handle}

/-- Where a handle does not occur no child list has it. -/
theorem map_without_of_not_mem (hh : h ∉ f.handles) : f.rows.map (Row.without h) = f.rows := by
  refine (List.map_congr_left fun r hr => Row.without_of_not_mem fun hmem => ?_).trans
    (List.map_id' _)
  exact hh (mem_handles_of_mem_children hr hmem)

theorem erase_of_not_mem (hh : h ∉ f.handles) : f.erase h = f := by
  induction f with
  | nil => rfl
  | cons e children next ihChildren ihNext =>
    rw [handles_cons, List.mem_cons, List.mem_append, not_or, not_or] at hh
    rw [erase, if_neg (Ne.symm hh.1), ihChildren hh.2.1, ihNext hh.2.2]

theorem topHandles_erase (h : Handle) (f : Forest Entry) :
    (f.erase h).topHandles = f.topHandles.erase h := by
  induction f with
  | nil => rfl
  | cons e children next _ ih =>
    rw [erase, topHandles_cons, List.erase_cons]
    split
    · next hhandle => rw [if_pos (beq_iff_eq.mpr hhandle)]
    · next hhandle => rw [if_neg (by simpa using hhandle), topHandles_cons, ih]

/-- **Taking a tree out** takes its rows out, and its handle out of the child list that has it. -/
theorem exists_rows_erase (hf : f.handles.Nodup) (ht : f.find? h = some t) :
    ∃ rest, List.Perm f.rows (t.rows ++ rest) ∧
      (f.erase h).rows = rest.map (Row.without h) := by
  induction f with
  | nil => cases ht
  | cons e children next ihChildren ihNext =>
    -- Handles are distinct: all parts keep their rows but the one in which the tree is found.
    obtain ⟨⟨heChildren, heNext⟩, hchildren, hnext, hapart⟩ := nodup_cons_iff.mp hf
    rw [find?] at ht
    rw [erase]
    split at ht
    · next hhandle =>
      cases ht
      subst hhandle
      rw [if_pos rfl]
      exact ⟨next.rows, .refl _, (map_without_of_not_mem heNext).symm⟩
    · next hhandle =>
      rw [if_neg hhandle]
      split at ht
      · next hfound =>
        cases ht
        obtain ⟨rest, hrows, herased⟩ := ihChildren hchildren hfound
        have hmem : h ∈ children.handles :=
          Decidable.byContradiction fun hh => by
            rw [find?_eq_none_iff.mpr hh] at hfound
            cases hfound
        have hout : h ∉ next.handles := hapart h hmem
        refine ⟨Tree.row ⟨e, children⟩ :: (rest ++ next.rows), ?_, ?_⟩
        · refine ((hrows.append_right next.rows).cons _).trans ?_
          rw [List.append_assoc]
          exact List.perm_middle.symm
        · rw [rows, erase_of_not_mem hout, herased, List.map_cons, List.map_append,
            map_without_of_not_mem hout]
          simp [Tree.row, Row.without, topHandles_erase]
      · next hnone =>
        obtain ⟨rest, hrows, herased⟩ := ihNext hnext ht
        have hout : h ∉ children.handles := find?_eq_none_iff.mp hnone
        refine ⟨Tree.row ⟨e, children⟩ :: (children.rows ++ rest), ?_, ?_⟩
        · refine ((hrows.append_left children.rows).cons _).trans ?_
          refine .trans ?_ List.perm_middle.symm
          exact (List.perm_append_comm_assoc _ _ _).cons _
        · rw [rows, erase_of_not_mem hout, herased, List.map_cons, List.map_append,
            map_without_of_not_mem hout, Row.without_of_not_mem]
          exact fun hmem => hout (mem_handles_of_mem_topHandles hmem)

end Forest

/-! ### Putting a tree down -/

/-- A list with an element in front of the first of its elements that is another one. -/
def putBefore (sibling h : Handle) : List Handle → List Handle
  | [] => []
  | c :: cs => if c = sibling then h :: c :: cs else c :: putBefore sibling h cs

/-- A list with an element behind the first of its elements that is another one. -/
def putAfter (sibling h : Handle) : List Handle → List Handle
  | [] => []
  | c :: cs => if c = sibling then c :: h :: cs else c :: putAfter sibling h cs

theorem putBefore_of_not_mem {sibling h : Handle} {l : List Handle} (hl : sibling ∉ l) :
    putBefore sibling h l = l := by
  induction l with
  | nil => rfl
  | cons c cs ih =>
    rw [List.mem_cons, not_or] at hl
    rw [putBefore, if_neg (Ne.symm hl.1), ih hl.2]

theorem putAfter_of_not_mem {sibling h : Handle} {l : List Handle} (hl : sibling ∉ l) :
    putAfter sibling h l = l := by
  induction l with
  | nil => rfl
  | cons c cs ih =>
    rw [List.mem_cons, not_or] at hl
    rw [putAfter, if_neg (Ne.symm hl.1), ih hl.2]

theorem exists_putBefore {sibling h : Handle} {l : List Handle} (hl : sibling ∈ l) :
    ∃ front back, l = front ++ sibling :: back ∧
      putBefore sibling h l = front ++ h :: sibling :: back := by
  induction l with
  | nil => cases hl
  | cons c cs ih =>
    rw [putBefore]
    split
    · next heq => exact ⟨[], cs, by rw [heq]; rfl, by rw [heq]; rfl⟩
    · next hne =>
      obtain ⟨front, back, hcs, hput⟩ := ih ((List.mem_cons.mp hl).resolve_left (Ne.symm hne))
      exact ⟨c :: front, back, congrArg (c :: ·) hcs, congrArg (c :: ·) hput⟩

theorem exists_putAfter {sibling h : Handle} {l : List Handle} (hl : sibling ∈ l) :
    ∃ front back, l = front ++ sibling :: back ∧
      putAfter sibling h l = front ++ sibling :: h :: back := by
  induction l with
  | nil => cases hl
  | cons c cs ih =>
    rw [putAfter]
    split
    · next heq => exact ⟨[], cs, by rw [heq]; rfl, by rw [heq]; rfl⟩
    · next hne =>
      obtain ⟨front, back, hcs, hput⟩ := ih ((List.mem_cons.mp hl).resolve_left (Ne.symm hne))
      exact ⟨c :: front, back, congrArg (c :: ·) hcs, congrArg (c :: ·) hput⟩

namespace Place

/-- **A child list with one more handle**, if the place is in it.  The list is the one of `owner`, or
of nobody at the top of a forest. -/
def among (h : Handle) (owner : Option Handle) (l : List Handle) : Place → List Handle
  | lastIn parent => if owner = some parent then l ++ [h] else l
  | firstIn parent => if owner = some parent then h :: l else l
  | before sibling => putBefore sibling h l
  | after sibling => putAfter sibling h l

/-- The place is in the child list. -/
def LiesIn (owner : Option Handle) (l : List Handle) : Place → Prop
  | lastIn parent | firstIn parent => owner = some parent
  | before sibling | after sibling => sibling ∈ l

/-- **The second list is the first with a handle** at the place: last, first, right before a sibling
or right behind it. -/
def Arranges (h : Handle) (old new : List Handle) : Place → Prop
  | lastIn _ => new = old ++ [h]
  | firstIn _ => new = h :: old
  | before sibling =>
    ∃ front back, old = front ++ sibling :: back ∧ new = front ++ h :: sibling :: back
  | after sibling =>
    ∃ front back, old = front ++ sibling :: back ∧ new = front ++ sibling :: h :: back

variable {place : Place} {h k : Handle} {owner : Option Handle} {l : List Handle}

theorem among_of_not_liesIn (hl : ¬ place.LiesIn owner l) : place.among h owner l = l := by
  cases place with
  | lastIn | firstIn => exact if_neg hl
  | before => exact putBefore_of_not_mem hl
  | after => exact putAfter_of_not_mem hl

theorem arranges_among (hl : place.LiesIn owner l) :
    place.Arranges h l (place.among h owner l) := by
  cases place with
  | lastIn | firstIn => exact if_pos hl
  | before => exact exists_putBefore hl
  | after => exact exists_putAfter hl

theorem Arranges.mem_iff {new : List Handle} (hnew : place.Arranges h l new) :
    k ∈ new ↔ k = h ∨ k ∈ l := by
  cases place with
  | lastIn =>
    obtain rfl : new = l ++ [h] := hnew
    rw [List.mem_append, List.mem_singleton, or_comm]
  | firstIn =>
    obtain rfl : new = h :: l := hnew
    exact List.mem_cons
  | before | after =>
    obtain ⟨front, back, rfl, rfl⟩ := hnew
    simp only [List.mem_append, List.mem_cons]
    tauto

theorem mem_among (hk : k ∈ l) : k ∈ place.among h owner l := by
  by_cases hl : place.LiesIn owner l
  · exact (arranges_among hl).mem_iff.mpr (.inr hk)
  · rwa [among_of_not_liesIn hl]

/-- The owner is of no importance unless it is the container that is named. -/
theorem among_of_ne (hk : k ≠ place.anchor) : place.among h (some k) l = place.among h none l := by
  cases place <;> simp_all [among, anchor]

theorem among_of_not_mem (hk : k ≠ place.anchor) (hl : place.anchor ∉ l) :
    place.among h (some k) l = l := by
  refine among_of_not_liesIn fun hin => ?_
  cases place with
  | lastIn | firstIn => exact hk (Option.some.inj hin)
  | before | after => exact hl hin

end Place

/-- A row with one more child, if the place is among its children. -/
def Row.receive (place : Place) (h : Handle) (r : Row) : Row :=
  { r with children := place.among h (some r.handle) r.children }

theorem Row.receive_of_not_mem {place : Place} {h : Handle} {r : Row}
    (hr : r.handle ≠ place.anchor) (hchildren : place.anchor ∉ r.children) :
    r.receive place h = r := by
  rw [receive, Place.among_of_not_mem hr hchildren]

namespace Forest

variable {f : Forest Entry} {t : Tree Entry} {place : Place}

theorem insert_of_not_mem (hf : place.anchor ∉ f.handles) : f.insert place t = f := by
  induction f with
  | nil => rfl
  | cons e children next ihChildren ihNext =>
    rw [handles_cons, List.mem_cons, List.mem_append, not_or, not_or] at hf
    rw [insert_cons_of_ne (Ne.symm hf.1), ihChildren hf.2.1, ihNext hf.2.2]

theorem topHandles_insert (place : Place) (t : Tree Entry) (f : Forest Entry) :
    (f.insert place t).topHandles = place.among t.value.handle none f.topHandles := by
  induction f with
  | nil => cases place <;> simp [insert, Place.among, putBefore, putAfter]
  | cons e children next _ ih =>
    by_cases hhandle : e.handle = place.anchor
    · cases place <;>
        simp_all [insert, Place.anchor, Place.among, putBefore, putAfter]
    · rw [insert_cons_of_ne hhandle, topHandles_cons, ih]
      cases place <;> simp_all [Place.anchor, Place.among, putBefore, putAfter]

/-- Where a place does not occur no row receives a child. -/
theorem map_receive_of_not_mem {h : Handle} (hf : place.anchor ∉ f.handles) :
    f.rows.map (Row.receive place h) = f.rows := by
  refine (List.map_congr_left fun r hr => Row.receive_of_not_mem ?_ fun hmem => ?_).trans
    (List.map_id' _)
  · exact fun hhandle => hf (hhandle ▸ handle_mem_handles hr)
  · exact hf (mem_handles_of_mem_children hr hmem)

private theorem perm_pull {α : Type} (x : α) (as ts bs : List α) :
    List.Perm (x :: (as ++ (ts ++ bs))) (ts ++ x :: (as ++ bs)) :=
  ((List.perm_append_comm_assoc as ts bs).cons x).trans List.perm_middle.symm

/-- A row above the place receives a child if the place is next to one of its children. -/
private theorem row_insert {e : Entry} {children : Forest Entry}
    (he : e.handle ≠ place.anchor) :
    Tree.row ⟨e, children.insert place t⟩ =
      (Tree.row ⟨e, children⟩).receive place t.value.handle := by
  simp only [Tree.row, Row.receive, topHandles_insert, Place.among_of_ne he]

/-- A tree in the first tree of a forest or next to it. -/
private theorem rows_insert_here {e : Entry} {children next : Forest Entry}
    (he : e.handle = place.anchor) (hchildren : place.anchor ∉ children.handles) :
    List.Perm ((cons e children next).insert place t).rows
      (t.rows ++ (Tree.row ⟨e, children⟩).receive place t.value.handle ::
        (children.rows ++ next.rows)) := by
  have htop : place.anchor ∉ children.topHandles :=
    fun hmem => hchildren (mem_handles_of_mem_topHandles hmem)
  cases place with
  | lastIn parent =>
    subst he
    have hrows : ((cons e children next).insert (.lastIn e.handle) t).rows =
        (Tree.row ⟨e, children⟩).receive (.lastIn e.handle) t.value.handle ::
          (children.rows ++ (t.rows ++ next.rows)) := by
      rw [insert_lastIn rfl]
      simp [rows, Tree.rows, Tree.row, Row.receive, Place.among]
    exact hrows ▸ perm_pull _ _ _ _
  | firstIn parent =>
    subst he
    have hrows : ((cons e children next).insert (.firstIn e.handle) t).rows =
        (Tree.row ⟨e, children⟩).receive (.firstIn e.handle) t.value.handle ::
          (t.rows ++ (children.rows ++ next.rows)) := by
      rw [insert_firstIn rfl]
      simp [rows, Tree.rows, Tree.row, Row.receive, Place.among]
    exact hrows ▸ List.perm_middle.symm
  | before sibling =>
    have hrows : ((cons e children next).insert (.before sibling) t).rows =
        t.rows ++ Tree.row ⟨e, children⟩ :: (children.rows ++ next.rows) := by
      rw [insert, if_pos he]
      rfl
    have hrow : (Tree.row ⟨e, children⟩).receive (.before sibling) t.value.handle =
        Tree.row ⟨e, children⟩ :=
      congrArg (Row.mk e.handle e.node) (putBefore_of_not_mem htop)
    rw [hrows, hrow]
  | after sibling =>
    have hrows : ((cons e children next).insert (.after sibling) t).rows =
        Tree.row ⟨e, children⟩ :: (children.rows ++ (t.rows ++ next.rows)) := by
      rw [insert, if_pos he]
      simp [rows, Tree.rows]
    have hrow : (Tree.row ⟨e, children⟩).receive (.after sibling) t.value.handle =
        Tree.row ⟨e, children⟩ :=
      congrArg (Row.mk e.handle e.node) (putAfter_of_not_mem htop)
    rw [hrows, hrow]
    exact perm_pull _ _ _ _

/-- **Putting a tree down** adds its rows, and its handle to one child list. -/
theorem rows_insert (hf : f.handles.Nodup) (hplace : place.anchor ∈ f.handles) :
    List.Perm (f.insert place t).rows
      (t.rows ++ f.rows.map (Row.receive place t.value.handle)) := by
  induction f with
  | nil => cases hplace
  | cons e children next ihChildren ihNext =>
    obtain ⟨⟨heChildren, heNext⟩, hchildren, hnext, hapart⟩ := nodup_cons_iff.mp hf
    rw [rows, List.map_cons, List.map_append]
    -- The place is in one part, and the others receive nothing.
    by_cases hhandle : e.handle = place.anchor
    · rw [hhandle] at heChildren heNext
      rw [map_receive_of_not_mem heChildren, map_receive_of_not_mem heNext]
      exact rows_insert_here hhandle heChildren
    · rw [insert_cons_of_ne hhandle, rows]
      by_cases hmem : place.anchor ∈ children.handles
      · have hout := hapart _ hmem
        rw [insert_of_not_mem hout, map_receive_of_not_mem hout, row_insert hhandle]
        refine (((ihChildren hchildren hmem).append_right next.rows).cons _).trans ?_
        rw [List.append_assoc]
        exact List.perm_middle.symm
      · have hin : place.anchor ∈ next.handles := by
          simpa [Ne.symm hhandle, hmem] using hplace
        rw [insert_of_not_mem hmem, map_receive_of_not_mem hmem,
          Row.receive_of_not_mem hhandle fun htop => hmem (mem_handles_of_mem_topHandles htop)]
        exact (((ihNext hnext hin).append_left children.rows).cons _).trans
          (perm_pull _ _ _ _)

/-- **What was put down is found** as it was. -/
theorem find?_insert (hf : t.value.handle ∉ f.handles) (hplace : place.anchor ∈ f.handles) :
    (f.insert place t).find? t.value.handle = some t := by
  induction f with
  | nil => cases hplace
  | cons e children next ihChildren ihNext =>
    rw [handles_cons, List.mem_cons, List.mem_append, not_or, not_or] at hf
    obtain ⟨he, hchildren, hnext⟩ := hf
    have hself (g : Forest Entry) :
        (cons t.value t.children g).find? t.value.handle = some t := by
      rw [find?, if_pos rfl]
    by_cases hhandle : e.handle = place.anchor
    · cases place with
      | lastIn parent =>
        have hparent : e.handle = parent := hhandle
        rw [insert_lastIn hparent, find?, if_neg (Ne.symm he), find?_append_of_not_mem hchildren,
          hself]
      | firstIn parent =>
        have hparent : e.handle = parent := hhandle
        rw [insert_firstIn hparent, find?, if_neg (Ne.symm he), hself]
      | before =>
        rw [insert, if_pos hhandle]
        exact hself _
      | after =>
        rw [insert, if_pos hhandle]
        simp only [find?, if_neg (Ne.symm he), find?_eq_none_iff.mpr hchildren, if_pos]
    · rw [insert_cons_of_ne hhandle, find?, if_neg (Ne.symm he)]
      by_cases hmem : place.anchor ∈ children.handles
      · rw [ihChildren hchildren hmem]
      · have hin : place.anchor ∈ next.handles := by
          simpa [Ne.symm hhandle, hmem] using hplace
        rw [insert_of_not_mem hmem, find?_eq_none_iff.mpr hchildren]
        exact ihNext hnext hin

/-! ### Moving a tree -/

theorem handles_perm_of_find? {rest : List Row} (hrows : List.Perm f.rows (t.rows ++ rest)) :
    List.Perm f.handles (t.handles ++ rest.map Row.handle) := by
  rw [← map_handle_rows, ← Tree.map_handle_rows, ← List.map_append]
  exact hrows.map Row.handle

theorem handles_subset_of_find? {h : Handle} (ht : f.find? h = some t) : t.handles ⊆ f.handles := by
  intro k hk
  rw [← Tree.map_handle_rows] at hk
  obtain ⟨r, hr, rfl⟩ := List.mem_map.mp hk
  obtain ⟨hrow, hrows⟩ := rows_of_find? ht
  rcases List.mem_cons.mp hr with rfl | hr
  · exact handle_mem_handles hrow
  · exact handle_mem_handles (hrows hr)

theorem nodup_of_find? {h : Handle} (hf : f.handles.Nodup) (ht : f.find? h = some t) :
    t.handles.Nodup := by
  obtain ⟨rest, hrows, -⟩ := exists_rows_erase hf ht
  exact (List.nodup_append'.mp ((handles_perm_of_find? hrows).nodup_iff.mp hf)).1

/-- The handles that are left when a tree is taken out. -/
theorem mem_handles_erase {h : Handle} (hf : f.handles.Nodup) (ht : f.find? h = some t)
    {k : Handle} : k ∈ (f.erase h).handles ↔ k ∈ f.handles ∧ k ∉ t.handles := by
  obtain ⟨rest, hrows, herased⟩ := exists_rows_erase hf ht
  have hperm := handles_perm_of_find? hrows
  have hrest : (f.erase h).handles = rest.map Row.handle := by
    rw [← map_handle_rows, herased, List.map_map]
    rfl
  have hapart := (List.nodup_append'.mp (hperm.nodup_iff.mp hf)).2.2
  rw [hrest, hperm.mem_iff, List.mem_append]
  constructor
  · intro hk
    exact ⟨.inr hk, fun hin => hapart hin hk⟩
  · rintro ⟨hin | hk, hout⟩
    · exact absurd hin hout
    · exact hk

/-- A node that was taken out is gone. -/
theorem not_mem_handles_erase {h : Handle} (hf : f.handles.Nodup) (ht : f.find? h = some t) :
    h ∉ (f.erase h).handles := by
  rw [mem_handles_erase hf ht]
  exact fun hmem => hmem.2 (handle_of_find? ht ▸ List.mem_cons_self)

theorem nodup_erase {h : Handle} (hf : f.handles.Nodup) (ht : f.find? h = some t) :
    (f.erase h).handles.Nodup := by
  obtain ⟨rest, hrows, herased⟩ := exists_rows_erase hf ht
  rw [← map_handle_rows, herased, List.map_map]
  exact (List.nodup_append'.mp ((handles_perm_of_find? hrows).nodup_iff.mp hf)).2.1

/-- The top of a tree is in none of its child lists. -/
theorem map_without_rows_of_find? {h : Handle} (hf : f.handles.Nodup) (ht : f.find? h = some t) :
    t.rows.map (Row.without h) = t.rows := by
  have hout : h ∉ t.children.handles :=
    handle_of_find? ht ▸ (List.nodup_cons.mp (nodup_of_find? hf ht)).1
  rw [Tree.rows, List.map_cons, map_without_of_not_mem hout,
    Row.without_of_not_mem fun hmem => hout (mem_handles_of_mem_topHandles hmem)]

/-- **Detaching a tree** takes its handle out of the child list that has it. -/
theorem rows_detach {h : Handle} (hf : f.handles.Nodup) (ht : f.find? h = some t) :
    List.Perm (f.erase h ++ cons t.value t.children nil).rows (f.rows.map (Row.without h)) := by
  obtain ⟨rest, hrows, herased⟩ := exists_rows_erase hf ht
  rw [rows_append, herased, rows_alone]
  refine List.perm_append_comm.trans ?_
  rw [← map_without_rows_of_find? hf ht, ← List.map_append]
  exact (hrows.map _).symm

/-- **Moving a tree** takes its handle out of one child list and puts it into one. -/
theorem rows_relink {h : Handle} (hf : f.handles.Nodup) (ht : f.find? h = some t)
    (hplace : place.anchor ∈ f.handles) (hout : place.anchor ∉ t.handles) :
    List.Perm ((f.erase h).insert place t).rows
      (f.rows.map fun r => (r.without h).receive place h) := by
  obtain ⟨rest, hrows, herased⟩ := exists_rows_erase hf ht
  have hself : t.value.handle = h := handle_of_find? ht
  have hkeep : t.rows.map (Row.receive place h) = t.rows := by
    rw [← rows_alone]
    exact map_receive_of_not_mem (by simpa [Tree.handles] using hout)
  refine (rows_insert (nodup_erase hf ht) ((mem_handles_erase hf ht).mpr ⟨hplace, hout⟩)).trans ?_
  have hmap : (t.rows ++ rest).map (fun r => (r.without h).receive place h) =
      t.rows ++ (f.erase h).rows.map (Row.receive place h) := by
    rw [herased, List.map_append, List.map_map]
    refine congrArg (· ++ _) ?_
    rw [← Function.comp_def (Row.receive place h) (Row.without h), ← List.map_map,
      map_without_rows_of_find? hf ht, hkeep]
  rw [hself, ← hmap]
  exact (hrows.map _).symm

end Forest

/-! ### Changing a node -/

/-- A row with a changed node, if it is the row of the given handle. -/
def Row.change (h : Handle) (change : Node → Node) (r : Row) : Row :=
  if r.handle = h then { r with node := change r.node } else r

namespace Forest

variable {f : Forest Entry} {t : Tree Entry} {h : Handle} {change : Node → Node}

theorem update_of_not_mem (hf : h ∉ f.handles) : f.update h change = f := by
  induction f with
  | nil => rfl
  | cons e children next ihChildren ihNext =>
    rw [handles_cons, List.mem_cons, List.mem_append, not_or, not_or] at hf
    rw [update, if_neg (Ne.symm hf.1), ihChildren hf.2.1, ihNext hf.2.2]

theorem topHandles_update (h : Handle) (change : Node → Node) (f : Forest Entry) :
    (f.update h change).topHandles = f.topHandles := by
  induction f with
  | nil => rfl
  | cons e children next _ ih =>
    rw [update]
    split
    · rfl
    · rw [topHandles_cons, ih, topHandles_cons]

theorem handles_update (h : Handle) (change : Node → Node) (f : Forest Entry) :
    (f.update h change).handles = f.handles := by
  induction f with
  | nil => rfl
  | cons e children next ihChildren ihNext =>
    rw [update]
    split
    · rfl
    · rw [handles_cons, ihChildren, ihNext, handles_cons]

theorem map_change_of_not_mem (hf : h ∉ f.handles) : f.rows.map (Row.change h change) = f.rows := by
  refine (List.map_congr_left fun r hr => if_neg fun hhandle => ?_).trans (List.map_id' _)
  exact hf (hhandle ▸ handle_mem_handles hr)

/-- **Changing a node** changes one row. -/
theorem rows_update (hf : f.handles.Nodup) :
    (f.update h change).rows = f.rows.map (Row.change h change) := by
  induction f with
  | nil => rfl
  | cons e children next ihChildren ihNext =>
    obtain ⟨⟨heChildren, heNext⟩, hchildren, hnext, -⟩ := nodup_cons_iff.mp hf
    rw [update, rows, List.map_cons, List.map_append]
    split
    · next hhandle =>
      subst hhandle
      rw [map_change_of_not_mem heChildren, map_change_of_not_mem heNext]
      simp [rows, Row.change, Tree.row]
    · next hhandle =>
      rw [rows, ihChildren hchildren, ihNext hnext]
      simp [Row.change, Tree.row, topHandles_update, hhandle]

/-- A tree is found as it was if the change is elsewhere. -/
theorem find?_update_of_not_mem {k : Handle} (ht : f.find? k = some t) (hh : h ∉ t.handles) :
    (f.update h change).find? k = some t := by
  induction f with
  | nil => cases ht
  | cons e children next ihChildren ihNext =>
    rw [find?] at ht
    rw [update]
    split at ht
    · next hhandle =>
      cases ht
      rw [Tree.handles, List.mem_cons, not_or] at hh
      rw [if_neg (Ne.symm hh.1), find?, if_pos hhandle, update_of_not_mem hh.2]
    · next hhandle =>
      -- Changed or not, the node at the top is not the one that is looked for.
      have hpass {children' next' : Forest Entry} (hhandles : children'.handles = children.handles)
          (hchildren : children.find? k = some t → children'.find? k = some t)
          (hnext : next.find? k = some t → next'.find? k = some t) (n : Node) :
          (cons ⟨e.handle, n⟩ children' next').find? k = some t := by
        rw [find?, if_neg hhandle]
        split at ht
        · next hfound =>
          rw [ht] at hfound
          rw [hchildren hfound]
        · next hnone =>
          rw [find?_eq_none_iff.mpr (hhandles ▸ find?_eq_none_iff.mp hnone)]
          exact hnext ht
      split
      · exact hpass rfl id id _
      · exact hpass (handles_update h change children) ihChildren ihNext _

/-! ### The line upwards -/

theorem ancestry?_eq_none_iff {above : List Handle} : f.ancestry? h above = none ↔ h ∉ f.handles := by
  induction f generalizing above with
  | nil => simp [ ancestry?]
  | cons e children next ihChildren ihNext =>
    rw [handles_cons, List.mem_cons, List.mem_append, not_or, not_or,
      ← @ihChildren (e.handle :: above), ← @ihNext above, Forest.ancestry?]
    split
    · next hhandle => simp [hhandle]
    · next hhandle =>
      cases hline : children.ancestry? h (e.handle :: above) with
      | none => simp [Ne.symm hhandle]
      | some line => simp

theorem exists_ancestry?_of_mem (hh : h ∈ f.handles) (above : List Handle) :
    ∃ line, f.ancestry? h above = some line := by
  cases hline : f.ancestry? h above with
  | none => exact absurd hh (ancestry?_eq_none_iff.mp hline)
  | some line => exact ⟨line, rfl⟩

/-- The line from a handle at the top. -/
theorem ancestry?_of_mem_topHandles (hf : f.handles.Nodup) (hh : h ∈ f.topHandles)
    (above : List Handle) : f.ancestry? h above = some (h :: above) := by
  induction f with
  | nil => cases hh
  | cons e children next _ ih =>
    obtain ⟨-, -, hnext, hapart⟩ := nodup_cons_iff.mp hf
    unfold ancestry?
    split
    · rfl
    · next hhandle =>
      have hmem : h ∈ next.topHandles := by simpa [Ne.symm hhandle] using hh
      have hout : h ∉ children.handles :=
        fun hin => hapart h hin (mem_handles_of_mem_topHandles hmem)
      rw [ancestry?_eq_none_iff.mpr hout]
      exact ih hnext hmem

/-- **The line upwards from a child** goes through its parent. -/
theorem ancestry?_of_mem_children (hf : f.handles.Nodup) {r : Row} (hr : r ∈ f.rows) {c : Handle}
    (hc : c ∈ r.children) (above : List Handle) :
    f.ancestry? c above = (f.ancestry? r.handle above).map (c :: ·) := by
  induction f generalizing above with
  | nil => cases hr
  | cons e children next ihChildren ihNext =>
    obtain ⟨⟨heChildren, heNext⟩, hchildren, hnext, hapart⟩ := nodup_cons_iff.mp hf
    rw [rows, List.mem_cons, List.mem_append] at hr
    rw [ ancestry?, ancestry?]
    obtain rfl | hr | hr := hr
    · have hne : e.handle ≠ c := fun h => heChildren (h ▸ mem_handles_of_mem_topHandles hc)
      have hself : e.handle = (Tree.row ⟨e, children⟩).handle := rfl
      rw [if_neg hne, if_pos hself, ancestry?_of_mem_topHandles hchildren hc]
      rfl
    · have hmem := mem_handles_of_mem_children hr hc
      have hne : e.handle ≠ c := fun h => heChildren (h ▸ hmem)
      have hne' : e.handle ≠ r.handle := fun h => heChildren (h ▸ handle_mem_handles hr)
      obtain ⟨line, hline⟩ := exists_ancestry?_of_mem (handle_mem_handles hr) (e.handle :: above)
      rw [if_neg hne, if_neg hne', ihChildren hchildren hr, hline]
      rfl
    · have hmem := mem_handles_of_mem_children hr hc
      have hne : e.handle ≠ c := fun h => heNext (h ▸ hmem)
      have hne' : e.handle ≠ r.handle := fun h => heNext (h ▸ handle_mem_handles hr)
      rw [if_neg hne, if_neg hne', ihNext hnext hr,
        ancestry?_eq_none_iff.mpr fun hin => hapart _ hin hmem,
        ancestry?_eq_none_iff.mpr fun hin => hapart _ hin (handle_mem_handles hr)]

end Forest

end LosslessCss
