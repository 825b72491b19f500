import LosslessCss.Proofs.Traversals

/-!
# The text of a node inside the text of its sheet

A node with a block can be printed on its own, and then its text is the one that it has in the sheet
(`Sheet.writeNode_eq_segment`).  The two runs of the loop have little in common: the one for the sheet
carries the depth of a node and its semicolon from step to step, and has the steps of everything that
follows below those of the node, while the other counts the ancestors of the node and starts with an
empty stack.

What makes the segment contiguous is that steps are only added on top and that whatever is on top is
worked off before the steps below it are looked at (`Sheet.exists_comes`).  So the run for the sheet
comes to the step of each node that it prints, with the depth that the node has (`Sheet.comes_to_node`):
it comes to the steps of the children of the root, and from the steps of the children of a node to
those of the children of one of them.  From there on it does what the other run does.

## Main Definitions

* `Comes` : a loop comes from one state to another
* `Sheet.writing` : where the run for a sheet starts

## Main Statements

* `Sheet.exists_comes`, `Sheet.comes_to_node`
* `Sheet.writeNode_eq_segment`
-/

namespace LosslessCss

/-! ### Loops -/

section Loop

variable {σ ρ : Type} {turn : σ → σ ⊕ ρ} {a b c : σ}

/-- **A loop comes from one state to another**, in however many turns. -/
def Comes (turn : σ → σ ⊕ ρ) (a b : σ) : Prop := ∃ most, Leads turn most a b

theorem Comes.refl (turn : σ → σ ⊕ ρ) (a : σ) : Comes turn a a := ⟨0, .refl turn a⟩

theorem Leads.comes {most : Nat} (h : Leads turn most a b) : Comes turn a b := ⟨most, h⟩

theorem Comes.trans (hab : Comes turn a b) (hbc : Comes turn b c) : Comes turn a c := by
  obtain ⟨m, hab⟩ := hab
  obtain ⟨n, hbc⟩ := hbc
  exact ⟨m + n, hab.trans hbc⟩

/-- More turns than needed make no difference to the result of a loop. -/
theorem loop_of_le {result : ρ} {turns turns' : Nat} (h : loop turn turns a = some result)
    (hle : turns ≤ turns') : loop turn turns' a = some result := by
  induction turns generalizing a turns' with
  | zero => cases h
  | succ turns ih =>
    obtain ⟨turns', rfl⟩ := Nat.exists_eq_add_of_le' (Nat.le_of_add_left_le hle)
    rw [loop] at h ⊢
    cases hturn : turn a with
    | inl b =>
      rw [hturn] at h
      exact ih h (Nat.le_of_succ_le_succ hle)
    | inr result' =>
      rw [hturn] at h
      exact h

/-- A loop that comes to a last state has no other result than the one of that state. -/
theorem Comes.loop_eq (h : Comes turn a b) {result result' : ρ} (hdone : turn b = .inr result)
    {turns : Nat} (hloop : loop turn turns a = some result') : result' = result := by
  obtain ⟨most, h⟩ := h
  have hmany := h.loop_eq hdone (Nat.le_add_left (most + 1) turns)
  exact Option.some.inj ((loop_of_le hloop (Nat.le_add_right turns _)).symm.trans hmany)

end Loop

/-! ### Nodes that are marked -/

/-- The node that something happens to. -/
def Mark.handle : Mark → Handle
  | opened h | closed h => h

namespace Forest

/-- No node is opened twice, and none is closed twice. -/
theorem count_marks_le (g : Forest Entry) (m : Mark) : g.marks.count m ≤ g.handles.count m.handle := by
  induction g with
  | nil => exact Nat.zero_le _
  | cons e children next ihChildren ihNext =>
    -- A mark is the one that opens the node at the top, the one that closes it, or one for a node
    -- below or behind it.
    have hself : [Mark.opened e.handle].count m + [Mark.closed e.handle].count m ≤
        [e.handle].count m.handle := by
      cases m <;> simp [List.count_cons, Mark.handle]
    have hinside : (if e.node.content.opensBlock then children.marks ++ [.closed e.handle]
        else []).count m ≤ children.marks.count m + [Mark.closed e.handle].count m := by
      split <;> simp
    rw [marks, handles_cons, ← List.singleton_append, ← List.singleton_append (x := e.handle)]
    simp only [List.count_append] at hinside ⊢
    omega

theorem handles_prune_sublist (p : Entry → Bool) (g : Forest Entry) :
    (g.prune p).handles.Sublist g.handles := by
  induction g with
  | nil => exact .refl _
  | cons e children next ihChildren ihNext =>
    rw [prune, handles_cons]
    split
    · rw [handles_cons]
      exact (ihChildren.append ihNext).cons_cons _
    · exact (ihNext.trans (List.sublist_append_right _ _)).cons _

end Forest

namespace Sheet

variable {s : Sheet} {h p : Handle} {l : Layout}

/-! ### The stack -/

section Tree

variable (hl : l.Regular) {t : Tree Entry}

include hl

/-- The text that the children of a node add, and the nodes that they open and close. -/
theorem WellFormed.children_leads (hs : s.WellFormed) (ht : s.find? h = some t) (depth : Nat)
    (steps : List Step) (text : String) (marks : List Mark) :
    Leads (s.writeTurn l) (2 * t.children.size)
      ⟨s.childSteps (l.closesLast t.value.node) (depth + 1) false (s.kept l h) ++ steps, text, marks⟩
      ⟨steps,
        text ++ (t.children.map Entry.node).print l (l.closesLast t.value.node) false (depth + 1),
        marks ++ (t.children.prune fun e => l.keeps e.node).marks⟩ := by
  rw [kept_eq, children_of_find? ht]
  exact write_leads hl (Has.of_find? hs ht) _ _ _ _ _ _

end Tree

/-- **Whatever is on top of the stack is worked off** before the steps below it are looked at.  It
adds some text and some marks. -/
theorem WellFormed.exists_comes (hs : s.WellFormed) (hl : l.Regular) (top steps : List Step)
    (text : String) (marks : List Mark) :
    ∃ text' marks', Comes (s.writeTurn l) ⟨top ++ steps, text, marks⟩
      ⟨steps, text ++ text', marks ++ marks'⟩ := by
  induction top generalizing text marks with
  | nil =>
    refine ⟨"", [], ?_⟩
    rw [String.append_empty, List.append_nil]
    exact .refl _ _
  | cons step top ih =>
    obtain ⟨text₁, marks₁, hstep⟩ : ∃ text' marks', Comes (s.writeTurn l)
        ⟨step :: (top ++ steps), text, marks⟩ ⟨top ++ steps, text ++ text', marks ++ marks'⟩ := by
      cases step with
      | node h depth semicolon first =>
        by_cases hlive : s.IsLive h
        · obtain ⟨t, ht⟩ := hlive.exists_find?
          have hnode := node_leads (hs.children_leads hl ht depth) (node?_of_find? ht) semicolon first
            (top ++ steps) text marks
          rw [String.append_assoc] at hnode
          exact ⟨_, _, hnode.comes⟩
        · refine ⟨l.leading first depth { content := .root }, [], (Leads.single ?_).comes⟩
          rw [writeTurn, node?_of_not_isLive hlive, List.append_nil]
      | close h n depth =>
        refine ⟨l.foot (s.children h).isEmpty depth n ++ "\x7d", [.closed h],
          (Leads.single ?_).comes⟩
        rw [writeTurn, String.append_assoc]
    obtain ⟨text₂, marks₂, htop⟩ := ih (text ++ text₁) (marks ++ marks₁)
    refine ⟨text₁ ++ text₂, marks₁ ++ marks₂, ?_⟩
    rw [← String.append_assoc, ← List.append_assoc]
    exact hstep.trans htop

/-- Each child has its step. -/
theorem exists_childSteps_eq (closed : Bool) (depth : Nat) (first : Bool) {children : List Handle}
    (hh : h ∈ children) : ∃ before semicolon first' behind,
      s.childSteps closed depth first children =
        before ++ .node h depth semicolon first' :: behind := by
  induction children generalizing first with
  | nil => cases hh
  | cons child children ih =>
    rcases List.mem_cons.mp hh with rfl | hh
    · exact ⟨[], _, first, _, rfl⟩
    · obtain ⟨before, semicolon, first', behind, heq⟩ := ih false hh
      exact ⟨_ :: before, semicolon, first', behind, by rw [childSteps, heq, List.cons_append]⟩

/-! ### The way to a node -/

/-- Where the run for a sheet starts. -/
def writing (s : Sheet) (l : Layout) : Writing :=
  ⟨s.childSteps (l.closesLastOfSheet ((s.node? root).getD { content := .root })) 0 true
    (s.kept l root), "", []⟩

theorem write_eq_loop (turns : Nat) : s.write turns l =
    (loop (s.writeTurn l) turns (s.writing l)).map fun (text, marks) =>
      (text ++ l.footOfSheet ((s.node? root).getD { content := .root }), marks) := rfl

/-- A run comes to the steps of the children of a node. -/
def ComesInto (s : Sheet) (l : Layout) (p : Handle) : Prop :=
  ∃ closed first steps text marks, Comes (s.writeTurn l) (s.writing l)
    ⟨s.childSteps closed ((s.ancestry p).length - 1) first (s.kept l p) ++ steps, text, marks⟩

/-- A run comes to the step of a node. -/
def ComesTo (s : Sheet) (l : Layout) (h : Handle) : Prop :=
  ∃ semicolon first steps text marks, Comes (s.writeTurn l) (s.writing l)
    ⟨.node h (s.depth h) semicolon first :: steps, text, marks⟩

/-- A run starts at the steps of the children of the root. -/
theorem WellFormed.comesInto_root (hs : s.WellFormed) : s.ComesInto l Sheet.root := by
  refine ⟨l.closesLastOfSheet ((s.node? Sheet.root).getD { content := .root }), true, [], "", [], ?_⟩
  rw [List.append_nil, hs.ancestry_of_mem_topHandles hs.root]
  exact .refl _ _

/-- From the steps of the children of a node a run comes to the step of each of them. -/
theorem WellFormed.comesTo_of_comesInto (hs : s.WellFormed) (hl : l.Regular) (hp : s.ComesInto l p)
    (hh : h ∈ s.kept l p) : s.ComesTo l h := by
  obtain ⟨closed, first, steps, text, marks, hp⟩ := hp
  obtain ⟨before, semicolon, first', behind, heq⟩ :=
    s.exists_childSteps_eq closed ((s.ancestry p).length - 1) first hh
  have hdepth : s.depth h = (s.ancestry p).length - 1 := by
    rw [depth, hs.ancestry_of_mem_children (List.mem_of_mem_filter hh), List.length_cons]
    omega
  rw [heq, ← hdepth, List.append_assoc, List.cons_append] at hp
  obtain ⟨text', marks', hbefore⟩ := hs.exists_comes hl before
    (.node h (s.depth h) semicolon first' :: (behind ++ steps)) text marks
  exact ⟨semicolon, first', behind ++ steps, _, _, hp.trans hbefore⟩

/-- A node with a block is opened at its step, and the steps of its children are put on top. -/
theorem ComesTo.comesInto (hh : s.ComesTo l h) {n : Node} (hn : s.node? h = some n)
    (hblock : n.content.opensBlock = true) (hlong : 1 < (s.ancestry h).length) : s.ComesInto l h := by
  obtain ⟨semicolon, first, steps, text, marks, hh⟩ := hh
  have hdepth : s.depth h + 1 = (s.ancestry h).length - 1 := by
    rw [depth]
    omega
  refine ⟨l.closesLast n, false, .close h n (s.depth h) :: steps,
    text ++ l.leading first (s.depth h) n ++ l.head semicolon n ++ "\x7b", marks ++ [.opened h],
    hh.trans (Leads.single ?_).comes⟩
  simp [writeTurn, hn, hblock, hdepth]

theorem WellFormed.one_lt_length_ancestry (hs : s.WellFormed) (hattached : s.isAttached h = true)
    (hroot : h ≠ Sheet.root) : 1 < (s.ancestry h).length := by
  have hline := hs.isAttached_iff.mp hattached
  have hlong := hs.length_ancestry_lt
    ((Relation.reflTransGen_iff_eq_or_transGen.mp hline).resolve_left hroot)
  rwa [hs.ancestry_of_mem_topHandles hs.root, List.length_singleton] at hlong

/-- **The run for a sheet comes to the step of each node with a block**, with the depth of the node:
the layout keeps what is no comment. -/
theorem WellFormed.comesTo (hs : s.WellFormed) (hl : l.Regular) (hattached : s.isAttached h = true)
    (hroot : h ≠ Sheet.root) {n : Node} (hn : s.node? h = some n)
    (hblock : n.content.opensBlock = true) : s.ComesTo l h := by
  have hkeeps {h : Handle} {n : Node} (hn : s.node? h = some n)
      (hblock : n.content.opensBlock = true) : s.keeps l h = true := by
    rw [keeps, hn, Option.all_some]
    by_contra hout
    have hcomment := hl.isComment n (Bool.eq_false_iff.mpr hout)
    cases hcontent : n.content <;> simp_all [Content.isComment, Content.opensBlock]
  have hline := hs.isAttached_iff.mp hattached
  -- The way leads from the root downwards.
  induction hline generalizing n with
  | refl => exact absurd rfl hroot
  | @tail p c hline hchild ih =>
    have hmem := hs.isParent_iff.mp hchild
    refine hs.comesTo_of_comesInto (p := p) hl ?_ (List.mem_filter.mpr ⟨hmem, hkeeps hn hblock⟩)
    by_cases hp : p = Sheet.root
    · exact hp ▸ hs.comesInto_root
    · -- A parent other than the root has a block.
      have hpattached := hs.isAttached_iff.mpr hline
      obtain ⟨m, hm⟩ := (hs.isLive_of_isParent hchild).1.exists_node?
      have hproper := hs.proper _ (row_mem hs.nodup hm)
      have hopens : m.content.opensBlock = true :=
        (hproper.body (List.ne_nil_of_mem hmem)).resolve_left fun hcontent => hp (hproper.root.mp hcontent)
      exact (ih hpattached hp hm hopens).comesInto hm hopens
        (hs.one_lt_length_ancestry hpattached hp)

/-! ### The node alone -/

/-- A semicolon makes no difference to a node with a block. -/
theorem head_of_opensBlock (style : Style) {n : Node} (hblock : n.content.opensBlock = true)
    (b b' : Bool) : style.layout.head b n = style.layout.head b' n := by
  obtain ⟨content, raws, span⟩ := n
  rw [Style.layout]
  cases content with
  | rule selector => cases style.minimize <;> rfl
  | atRule name params hasBody =>
    obtain rfl : hasBody = true := hblock
    cases style.minimize <;> rfl
  | _ => cases hblock

/-- Below an attached node there is less than below the root. -/
theorem WellFormed.length_below_le (hs : s.WellFormed) (hattached : s.isAttached h = true) :
    (s.below h).length ≤ (s.below Sheet.root).length := by
  refine ((hs.nodup_below h).subperm fun k hk => ?_).length_le
  rw [hs.mem_below_iff] at hk ⊢
  exact hk.trans_right (hs.isAttached_iff.mp hattached)

theorem isEmpty_children_of_find? {t : Tree Entry} (ht : s.find? h = some t) :
    (s.children h).isEmpty = (t.children.map Entry.node).isEmpty := by
  rw [children_of_find? ht]
  cases t.children <;> rfl

/-- **A node that is printed alone** is opened, what is below it is written, and it is closed. -/
theorem WellFormed.writeNode_eq (hs : s.WellFormed) (hl : l.Regular) (hroot : h ≠ Sheet.root)
    {t : Tree Entry} (ht : s.find? h = some t) (hblock : t.value.node.content.opensBlock = true)
    {turns : Nat} (hturns : 2 * (s.below h).length + 2 ≤ turns) :
    s.writeNode turns l h = some ((t.map Entry.node).printAlone l (s.depth h),
      .opened h :: ((t.children.prune fun e => l.keeps e.node).marks ++ [.closed h])) := by
  have hrun := block_leads (hs.children_leads hl ht (s.depth h)) hblock l.closesAlone [] "" [.opened h]
  rw [below_of_find? ht, Forest.handles, List.length_map, Forest.length_preorder] at hturns
  rw [isEmpty_children_of_find? ht, String.empty_append, String.empty_append] at hrun
  rw [writeNode, if_neg hroot, opened, node?_of_find? ht]
  dsimp only
  rw [if_pos hblock]
  exact hrun.loop_eq rfl hturns

/-- **No node is opened or closed twice** while a sheet is printed. -/
theorem WellFormed.count_marks_eq_one (hs : s.WellFormed) {t : Tree Entry}
    (ht : s.find? Sheet.root = some t) {p : Entry → Bool} {m : Mark}
    (hm : m ∈ (t.children.prune p).marks) : (t.children.prune p).marks.count m = 1 := by
  have hnodup : t.children.handles.Nodup := below_of_find? ht ▸ hs.nodup_below Sheet.root
  have hpruned := (Forest.handles_prune_sublist p t.children).nodup hnodup
  have hmost := (Forest.count_marks_le _ m).trans (List.nodup_iff_count_le_one.mp hpruned m.handle)
  exact le_antisymm hmost (List.count_pos_iff.mpr hm)

/-- **What is written for a node alone is what is written for it in the sheet.**  The run for the
sheet comes to the step of the node with some text in front, and from there to the steps behind it
with the gap in front of the node and the text of the node, from its head to the brace that closes its
block.  No other part of the text is marked as the one of the node. -/
theorem writeNode_eq_segment (hs : s.Reached) (hattached : s.isAttached h = true)
    (hroot : h ≠ Sheet.root) {n : Node} (hn : s.node? h = some n)
    (hblock : n.content.opensBlock = true) (style : Style) {turns : Nat}
    (hturns : 2 * (s.below Sheet.root).length + 2 ≤ turns) :
    let l := style.layout
    ∃ own seen inner, seen = .opened h :: (inner ++ [.closed h]) ∧
      s.writeNode turns l h = some (own, seen) ∧
      (s.tree? h).map (Tree.printAlone l (s.depth h)) = some own ∧
      ∃ semicolon first steps front marks behind marks',
        Comes (s.writeTurn l) (s.writing l)
          ⟨.node h (s.depth h) semicolon first :: steps, front, marks⟩ ∧
        Comes (s.writeTurn l) ⟨.node h (s.depth h) semicolon first :: steps, front, marks⟩
          ⟨steps, front ++ l.leading first (s.depth h) n ++ own, marks ++ seen⟩ ∧
        s.write turns l = some (front ++ l.leading first (s.depth h) n ++ own ++ behind,
          marks ++ seen ++ marks') ∧
        s.attachedTree.print l = front ++ l.leading first (s.depth h) n ++ own ++ behind ∧
        ∀ m ∈ [.opened h, .closed h], (marks ++ seen ++ marks').count m = 1 := by
  intro l
  have hs := hs.wellFormed
  have hl : l.Regular := style.regular
  obtain ⟨t, ht⟩ := (isLive_of_node? hn).exists_find?
  obtain rfl : t.value.node = n := Option.some.inj ((node?_of_find? ht).symm.trans hn)
  have hfewer := hs.length_below_le hattached
  refine ⟨_, _, _, rfl, hs.writeNode_eq hl hroot ht hblock (by omega), by rw [tree?, ht]; rfl, ?_⟩
  obtain ⟨semicolon, first, steps, front, marks, hto⟩ := hs.comesTo hl hattached hroot hn hblock
  have hnode := node_leads (hs.children_leads hl ht (s.depth h)) hn semicolon first steps front marks
  have hown : l.wrap semicolon (s.depth h) t.value.node (s.children h).isEmpty
      ((t.children.map Entry.node).print l (l.closesLast t.value.node) false (s.depth h + 1)) =
      (t.map Entry.node).printAlone l (s.depth h) := by
    rw [Layout.wrap, head_of_opensBlock style hblock semicolon l.closesAlone,
      isEmpty_children_of_find? ht]
    rfl
  rw [hown, hblock, if_pos rfl] at hnode
  obtain ⟨text', marks', hbehind⟩ := hs.exists_comes hl steps [] (front ++
    l.leading first (s.depth h) t.value.node ++ (t.map Entry.node).printAlone l (s.depth h))
    (marks ++ .opened h :: ((t.children.prune fun e => l.keeps e.node).marks ++ [.closed h]))
  rw [List.append_nil] at hbehind
  -- The run ends, and its text is the one of the sheet.
  obtain ⟨u, hu, -⟩ := hs.exists_attachedTree
  have hwrite := write_of_regular hs hl hu (Nat.le_of_succ_le hturns)
  obtain ⟨⟨text, all⟩, hloop, htext⟩ := Option.map_eq_some_iff.mp (write_eq_loop (l := l) turns ▸ hwrite)
  obtain ⟨rfl, rfl⟩ := Prod.mk.inj ((hto.trans (hnode.comes.trans hbehind)).loop_eq rfl hloop)
  obtain ⟨htext, hall⟩ := Prod.mk.inj htext
  rw [String.append_assoc] at htext
  refine ⟨semicolon, first, steps, front, marks, _, marks', hto, hnode.comes, ?_, htext.symm,
    fun m hm => ?_⟩
  · rw [hwrite, ← htext, hall]
  · rw [hall]
    refine hs.count_marks_eq_one hu (hall ▸ ?_)
    rcases List.mem_pair.mp hm with rfl | rfl <;> simp

theorem writeNode_eq_segment_busyOperations :
    ∃ t s, parse busySheet false = .ok t ∧
      busyOperations.foldl Operation.run (Sheet.ofTree t) = s ∧ s.children 7 = [8, 1] ∧
      ∃ own seen front behind, s.writeNode 16 (Style.layout {}) 7 = some (own, seen) ∧
        (s.write 16 (Style.layout {})).map Prod.fst = some (front ++ own ++ behind) := by
  have hrun : (parse busySheet false).toOption.any (fun t =>
      let s := busyOperations.foldl Operation.run (Sheet.ofTree t)
      s.children 7 == [8, 1] && ((s.below root).length == 7 &&
        (s.isAttached 7 && (s.node? 7).any (·.content.opensBlock)))) = true := by
    decide +kernel
  obtain ⟨t, ht, hrun⟩ := exists_ok_of_any hrun
  obtain ⟨hchildren, hrun⟩ := Bool.and_eq_true_iff.mp hrun
  obtain ⟨hsize, hrun⟩ := Bool.and_eq_true_iff.mp hrun
  obtain ⟨hattached, hnode⟩ := Bool.and_eq_true_iff.mp hrun
  obtain ⟨n, hn, hblock⟩ := (Option.any_eq_true _ _).mp hnode
  have hturns : 2 * ((busyOperations.foldl Operation.run (Sheet.ofTree t)).below root).length + 2 ≤
      16 := by
    rw [beq_iff_eq.mp hsize]
  obtain ⟨own, seen, _, -, hown, -, _, first, _, front, _, behind, _, -, -, hwrite, -⟩ :=
    writeNode_eq_segment ((Reached.parsed ht).foldl busyOperations) hattached nofun hn hblock {}
      hturns
  exact ⟨t, _, ht, rfl, beq_iff_eq.mp hchildren, own, seen, _, behind, hown,
    congrArg (Option.map Prod.fst) hwrite⟩

end Sheet

end LosslessCss
