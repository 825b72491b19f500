import LosslessCss.Proofs.Moves
import LosslessCss.Proofs.Cutting
import LosslessCss.Proofs.RoundTrip

/-!
# Edited sheets

The nodes of a sheet that was read can be moved about and taken out.  No edit makes a node or
changes what it means, so whatever stands in the sheet after any number of edits was read before
(`Entry.Read`).  Hence the sheet prints as a text that is read as the sheet again exactly if the
nodes settle where they stand now.

## Main Definitions

* `Edit`, `Edit.apply` : the edits that move and take out nodes
* `Entry.Read` : a node was read, under a handle that says whether it is a container

## Main Statements

* `Edit.apply_sound` : every edit keeps a sheet sound
* `exists_parse_print_edited_iff`
-/

namespace LosslessCss

/-! ### Edits -/

/-- An edit that moves a node or takes it out. -/
inductive Edit where
  | detach (node : Handle)
  | remove (node : Handle)
  | append (parent node : Handle)
  | prepend (parent node : Handle)
  | insertBefore (sibling node : Handle)
  | insertAfter (sibling node : Handle)
  deriving DecidableEq, Repr

/-- The sheet after an edit, if the edit succeeds. -/
def Edit.apply (s : Sheet) : Edit → Except EditError Sheet
  | detach node => s.detach node
  | remove node => s.remove node
  | append parent node => s.append parent node
  | prepend parent node => s.prepend parent node
  | insertBefore sibling node => s.insertBefore sibling node
  | insertAfter sibling node => s.insertAfter sibling node

/-! ### Legible sheets -/

/-- **What a text of the grammar contains** is legible if its nodes were read. -/
theorem Reads.legible {text rest : List Char} {g : Forest Content} (h : Reads text g rest)
    {f : Forest Node} (hf : f.map Node.content = g)
    (hnodes : ∀ n ∈ f.preorder, n.Written ∧ n.Spaced) : f.Legible := by
  induction h generalizing f with
  | nil =>
    cases f with
    | nil => trivial
    | cons => cases hf
  | gap _ _ ih => exact ih hf hnodes
  | comment _ _ ih =>
    cases f with
    | nil => cases hf
    | cons n children next =>
      simp only [Forest.map, Forest.cons.injEq, Forest.map_eq_nil_iff] at hf
      obtain ⟨-, rfl, hnext⟩ := hf
      obtain ⟨hwritten, hspaced⟩ := hnodes n List.mem_cons_self
      exact ⟨⟨hwritten, hspaced, fun _ => rfl⟩, trivial,
        ih hnext fun m hm => hnodes m (List.mem_cons_of_mem _ (List.mem_append_right _ hm))⟩
  | closed _ _ _ _ _ ih | last _ _ _ _ _ ih =>
    cases f with
    | nil => cases hf
    | cons n children next =>
      simp only [Forest.map, Forest.cons.injEq, Forest.map_eq_nil_iff] at hf
      obtain ⟨-, rfl, hnext⟩ := hf
      obtain ⟨hwritten, hspaced⟩ := hnodes n List.mem_cons_self
      exact ⟨⟨hwritten, hspaced, fun _ => rfl⟩, trivial,
        ih hnext fun m hm => hnodes m (List.mem_cons_of_mem _ (List.mem_append_right _ hm))⟩
  | block _ _ _ hblock _ _ ihInner ih =>
    cases f with
    | nil => cases hf
    | cons n children next =>
      simp only [Forest.map, Forest.cons.injEq] at hf
      obtain ⟨rfl, hchildren, hnext⟩ := hf
      obtain ⟨hwritten, hspaced⟩ := hnodes n List.mem_cons_self
      refine ⟨⟨hwritten, hspaced, fun hleaf => ?_⟩,
        ihInner hchildren fun m hm => hnodes m (List.mem_cons_of_mem _ (List.mem_append_left _ hm)),
        ih hnext fun m hm => hnodes m (List.mem_cons_of_mem _ (List.mem_append_right _ hm))⟩
      rw [hblock] at hleaf
      cases hleaf

namespace Node

variable {n : Node}

/-- What was read is no root. -/
theorem Written.content_ne_root (h : n.Written) : n.content ≠ .root := by
  cases h with
  | comment _ hcontent =>
    rw [hcontent]
    simp
  | run _ _ hcontent =>
    intro hroot
    rw [hroot] at hcontent
    cases hcontent

/-- With a body a node was read as well. -/
theorem Written.giveBody (h : n.Written) : (Sheet.giveBody n).Written := by
  obtain ⟨content, raws, span⟩ := n
  cases content with
  | atRule name params hasBody =>
    cases h with
    | comment _ hcontent => cases hcontent
    | run hstands hstops hcontent hrecords =>
      obtain ⟨first, hfirst, hkind, rfl, rfl⟩ := Content.readFrom_atRule hcontent
      exact .run hstands hstops (.atRule hfirst hkind true) hrecords
  | _ => exact h

theorem Spaced.giveBody (h : n.Spaced) : (Sheet.giveBody n).Spaced := by
  refine ⟨?_, ?_⟩
  · rw [Sheet.giveBody_raws]
    exact h.before
  · rw [Sheet.giveBody_raws]
    exact h.after

end Node

/-- **An entry was read**, and the class of handles tells whether it is a container. -/
structure Entry.Read (containers : Handle → Prop) (e : Entry) : Prop where
  written : e.node.Written
  spaced : e.node.Spaced
  isContainer : e.node.content.isContainer = true ↔ containers e.handle

/-- Edits cannot undo that an entry was read. -/
theorem Entry.Read.stable (containers : Handle → Prop) : Entry.Stable (Entry.Read containers) where
  ne_root he := he.written.content_ne_root
  giveBody he := ⟨he.written.giveBody, he.spaced.giveBody, by
    rw [Sheet.giveBody_isContainer]
    exact he.isContainer⟩
  isContainer he he' hsame := by
    rw [Bool.eq_iff_iff, he.isContainer, he'.isContainer, hsame]

/-- A forest of entries that were read is legible. -/
theorem Forest.Sound.legible {containers : Handle → Prop} {f : Forest Entry}
    (hf : f.Sound (Entry.Read containers)) : (f.map Entry.node).Legible := by
  induction f with
  | nil => trivial
  | cons e children next ihChildren ihNext =>
    obtain ⟨⟨hread, hleaf⟩, hchildren, hnext⟩ := hf
    refine ⟨⟨hread.written, hread.spaced, fun hblock => ?_⟩, ihChildren hchildren, ihNext hnext⟩
    rw [hleaf hblock]
    rfl

/-- **Every edit keeps a sheet sound.** -/
theorem Edit.apply_sound {containers : Handle → Prop} {root : Node} {s s' : Sheet} {edit : Edit}
    (hs : s.Sound (Entry.Read containers) root) (hedit : edit.apply s = .ok s') :
    s'.Sound (Entry.Read containers) root := by
  cases edit with
  | append => exact hs.move (Entry.Read.stable containers) hedit
  | prepend => exact hs.move (Entry.Read.stable containers) hedit
  | insertBefore => exact hs.move (Entry.Read.stable containers) hedit
  | insertAfter => exact hs.move (Entry.Read.stable containers) hedit
  | detach node =>
    rw [Edit.apply, Sheet.detach] at hedit
    cases hmovable : s.checkMovable node with
    | error e =>
      rw [hmovable] at hedit
      cases hedit
    | ok t =>
      rw [hmovable] at hedit
      cases hedit
      obtain ⟨hroot, -, hsound⟩ := hs.checkMovable hmovable
      obtain ⟨children, others, htrees, hchildren, hothers⟩ := hs.exists_erase hroot
      refine ⟨hs.content, hs.after, children, _, ?_, hchildren, hothers.append hsound⟩
      rw [htrees]
      rfl
  | remove node =>
    rw [Edit.apply, Sheet.remove] at hedit
    cases hmovable : s.checkMovable node with
    | error e =>
      rw [hmovable] at hedit
      cases hedit
    | ok t =>
      rw [hmovable] at hedit
      cases hedit
      exact ⟨hs.content, hs.after, hs.exists_erase (hs.checkMovable hmovable).1⟩

/-- **Any number of edits** keeps a sheet sound. -/
theorem Edit.run_sound {containers : Handle → Prop} {root : Node} {s s' : Sheet} {edits : List Edit}
    (hs : s.Sound (Entry.Read containers) root) (hedits : edits.foldlM Edit.apply s = .ok s') :
    s'.Sound (Entry.Read containers) root := by
  induction edits generalizing s with
  | nil =>
    cases hedits
    exact hs
  | cons edit edits ih =>
    rw [List.foldlM_cons] at hedits
    cases hedit : edit.apply s with
    | error e =>
      rw [hedit] at hedits
      cases hedits
    | ok s₁ =>
      rw [hedit] at hedits
      exact ih (Edit.apply_sound hs hedit) hedits

/-! ### Sheets that were read -/

/-- Handles in document order are those in a row. -/
theorem Forest.map_handle_label (first : Handle) (f : Forest Node) :
    (f.label first).preorder.map Entry.handle = List.range' first f.size := by
  induction f generalizing first with
  | nil => rfl
  | cons n children next ihChildren ihNext =>
    rw [label, preorder, size, List.map_cons, List.map_append, ihChildren, ihNext,
      List.range'_append_1, List.range'_succ]

/-- The nodes of a labelled forest. -/
theorem Forest.map_node_label (first : Handle) (f : Forest Node) :
    (f.label first).map Entry.node = f := by
  induction f generalizing first with
  | nil => rfl
  | cons n children next ihChildren ihNext => rw [label, map, ihChildren, ihNext]

/-- A legible forest is sound under handles that tell the containers. -/
theorem Forest.Legible.sound {containers : Handle → Prop} {f : Forest Entry}
    (hf : (f.map Entry.node).Legible)
    (hcontainers : ∀ e ∈ f.preorder,
      (e.node.content.isContainer = true ↔ containers e.handle)) : f.Sound (Entry.Read containers) := by
  induction f with
  | nil => trivial
  | cons e children next ihChildren ihNext =>
    obtain ⟨⟨hwritten, hspaced, hleaf⟩, hchildren, hnext⟩ := hf
    exact ⟨⟨⟨hwritten, hspaced, hcontainers e List.mem_cons_self⟩,
        fun hblock => Forest.map_eq_nil_iff.mp (hleaf hblock)⟩,
      ihChildren hchildren fun d hd => hcontainers d (List.mem_cons_of_mem _
        (List.mem_append_left _ hd)),
      ihNext hnext fun d hd => hcontainers d (List.mem_cons_of_mem _ (List.mem_append_right _ hd))⟩

/-- **What a strict parse yields** is a sound sheet. -/
theorem Sheet.exists_sound_of_parse {source : Source} {t : Tree Node}
    (h : parse source false = .ok t) :
    ∃ containers, (Sheet.ofTree t).Sound (Entry.Read containers) t.value := by
  obtain ⟨hreads, hcontent, hafter, hnodes⟩ := reads_of_parse h
  have hlegible := hreads.legible rfl hnodes
  refine ⟨fun handle => ∃ e ∈ (t.children.label 1).preorder,
    e.handle = handle ∧ e.node.content.isContainer = true, hcontent, hafter, _, _, rfl, ?_, trivial⟩
  refine Forest.Legible.sound (by rwa [Forest.map_node_label]) fun e he => ?_
  constructor
  · exact fun hcontainer => ⟨e, he, rfl, hcontainer⟩
  · rintro ⟨d, hd, hhandle, hcontainer⟩
    have hnodup : ((t.children.label 1).preorder.map Entry.handle).Nodup := by
      rw [Forest.map_handle_label]
      exact List.nodup_range'
    obtain rfl := List.inj_on_of_nodup_map hnodup hd he hhandle
    exact hcontainer

/-- **A sheet settles**: all its nodes end where they are printed. -/
def Tree.Settled (t : Tree Node) : Prop :=
  t.children.Settled (t.value.raws.semicolon.getD false) 0 (t.value.raws.after.getD "").toList

/-- **A tree of nodes that were read** prints as a text that is read as the tree again exactly if
the tree settles. -/
theorem Tree.exists_parse_print_iff {t : Tree Node} {source : Source}
    (hcontent : t.value.content = .root) (hafter : ∀ x ∈ t.value.raws.after, IsGapText x)
    (ht : t.children.Legible) (hsource : source.text = t.print (.faithful id)) :
    (∃ t', parse source false = .ok t' ∧ t'.map Node.content = t.map Node.content) ↔
      t.Settled := by
  have hfoot : IsGapText (t.value.raws.after.getD "") := by
    cases hraw : t.value.raws.after with
    | none => exact isGapText_empty
    | some gap => exact hafter gap hraw
  have htext : source.text.toList = (t.children.print (.faithful id)
      (t.value.raws.semicolon.getD false) true 0).toList ++
        ((t.value.raws.after.getD "").toList ++ []) := by
    rw [hsource, Tree.print, String.toList_append, List.append_nil]
    rfl
  constructor
  · rintro ⟨t', hparse, hsame⟩
    have hreads := (reads_of_parse hparse).1
    rw [show t'.children.map Node.content = t.children.map Node.content from
      congrArg Tree.children hsame, htext] at hreads
    have hsettled := (Forest.settled_of_reads ht hfoot (by simp) (by simp) hreads).1
    rwa [List.append_nil] at hsettled
  · intro hsettled
    have hbehind := (Reads.nil []).gap_append hfoot
    rw [List.append_nil] at hbehind
    have hreads := ht.reads_print true hsettled hbehind (by simp)
    rw [Forest.append_nil, ← List.append_nil (t.value.raws.after.getD "").toList, ← htext] at hreads
    obtain ⟨t', hparse, hshape⟩ := parse_of_reads hreads
    refine ⟨t', hparse, hshape.trans ?_⟩
    rw [Tree.map, hcontent]

/-- **A sound sheet prints back** exactly if it settles. -/
theorem Sheet.Sound.exists_parse_print_iff {containers : Handle → Prop} {root : Node} {s : Sheet}
    (hs : s.Sound (Entry.Read containers) root) {source : Source}
    (hsource : source.text = s.attachedTree.print (Style.layout {})) :
    (∃ t, parse source false = .ok t ∧ t.map Node.content = s.attachedTree.map Node.content) ↔
      s.attachedTree.Settled := by
  obtain ⟨children, htree, hchildren⟩ := hs.exists_attachedTree
  rw [htree] at hsource ⊢
  rw [Style.layout_default] at hsource
  exact Tree.exists_parse_print_iff hs.content hs.after hchildren.legible hsource

/-- **Edited sheets print back exactly if they settle.**  Take a sheet that a strict parse accepts,
and move and take out nodes in any order.  What is then printed is accepted, with the same nodes in
the same order and nesting, exactly if each node ends in front of what is printed behind it. -/
theorem exists_parse_print_edited_iff {source source' : Source} {t : Tree Node} {edits : List Edit}
    {s : Sheet} (hparse : parse source false = .ok t)
    (hedits : edits.foldlM Edit.apply (Sheet.ofTree t) = .ok s)
    (hsource : source'.text = s.attachedTree.print (Style.layout {})) :
    (∃ t', parse source' false = .ok t' ∧ t'.map Node.content = s.attachedTree.map Node.content) ↔
      s.attachedTree.Settled := by
  obtain ⟨containers, hsound⟩ := Sheet.exists_sound_of_parse hparse
  exact (Edit.run_sound hsound hedits).exists_parse_print_iff hsource

/-- A sheet with blocks, a comment and statements of both kinds. -/
def busySheet : Source where
  text := "a\x7b b:c; d\x7be:f\x7d\x7d/*k*/@g h;"

/-- Edits that move statements into, out of and between blocks. -/
def busyEdits : List Edit :=
  [.append 1 2, .prepend 0 6, .insertAfter 1 4, .insertBefore 1 5, .detach 3]

theorem exists_parse_print_edited_iff_busySheet :
    ∃ t s, parse busySheet false = .ok t ∧
      busyEdits.foldlM Edit.apply (Sheet.ofTree t) = .ok s ∧ s.attachedTree.Settled := by
  have hrun : (parse busySheet false).toOption.any (fun t =>
      (busyEdits.foldlM Edit.apply (Sheet.ofTree t)).toOption.any fun s =>
        (parse { text := s.attachedTree.print (Style.layout {}) } false).toOption.any fun t' =>
          t'.map Node.content == s.attachedTree.map Node.content) = true := by
    decide +kernel
  obtain ⟨t, ht, hrun⟩ := exists_ok_of_any hrun
  obtain ⟨s, hs, hrun⟩ := exists_ok_of_any hrun
  obtain ⟨t', ht', hsame⟩ := exists_ok_of_any hrun
  exact ⟨t, s, ht, hs, (exists_parse_print_edited_iff ht hs rfl).mp ⟨t', ht', beq_iff_eq.mp hsame⟩⟩

/-- A sheet whose first statement is the last one once the rule is gone. -/
def trailingSheet : Source where
  text := "b:c;/*k*/y\x7b\x7d"

/-- **What is printed of an edited sheet may be read as another sheet**: a comment behind a
statement without a semicolon becomes part of its value. -/
theorem not_settled_trailingSheet :
    ∃ t s, parse trailingSheet false = .ok t ∧
      [Edit.remove 3].foldlM Edit.apply (Sheet.ofTree t) = .ok s ∧
        s.attachedTree.print (Style.layout {}) = "b:c/*k*/" ∧ ¬s.attachedTree.Settled := by
  have hrun : (parse trailingSheet false).toOption.any (fun t =>
      ([Edit.remove 3].foldlM Edit.apply (Sheet.ofTree t)).toOption.any fun s =>
        s.attachedTree.print (Style.layout {}) == "b:c/*k*/" &&
          (parse { text := s.attachedTree.print (Style.layout {}) } false).toOption.any fun t' =>
            t'.map Node.content != s.attachedTree.map Node.content) = true := by
    decide +kernel
  obtain ⟨t, ht, hrun⟩ := exists_ok_of_any hrun
  obtain ⟨s, hs, hrun⟩ := exists_ok_of_any hrun
  obtain ⟨hprint, hrun⟩ := Bool.and_eq_true_iff.mp hrun
  obtain ⟨t', ht', hother⟩ := exists_ok_of_any hrun
  refine ⟨t, s, ht, hs, beq_iff_eq.mp hprint, fun hsettled => ?_⟩
  obtain ⟨containers, hsound⟩ := Sheet.exists_sound_of_parse ht
  obtain ⟨t'', ht'', hsame⟩ := ((Edit.run_sound hsound hs).exists_parse_print_iff
    (show Source.text { text := s.attachedTree.print (Style.layout {}) } = _ from rfl)).mpr hsettled
  cases ht'.symm.trans ht''
  exact bne_iff_ne.mp hother hsame

end LosslessCss
