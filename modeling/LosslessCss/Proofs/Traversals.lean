import LosslessCss.Sheet.Traversal
import LosslessCss.Proofs.Snapshots

/-!
# One order for all traversals

Walking, exporting, outlining and printing each keep a stack in their own way, and still all come to
the nodes of a sheet in the same order, each node once (`Sheet.traversals_agree`).  What a loop does
is plain recursion over the trees of the sheet, because of what its turns do to the top of its stack:
they work off one forest and leave what is below as it was (`Leads`).  Exporting puts the objects of
the forest behind those that the innermost container had before; outlining and printing put its lines
and its text behind the text so far.  The children of a node form such a forest again, put on top of
what follows the node, so each statement is one induction on the forest.

## Main Definitions

* `Leads` : a loop gets from one state to another within some turns
* `Sheet.toJson` : the object of a node by recursion
* `Sheet.line` : the line of a node, indented by its ancestors
* `Forest.marks`, `Sheet.marks` : where recursion opens and closes nodes

## Main Statements

* `Sheet.export_leads`, `Sheet.outline_leads`, `Sheet.write_leads` : what the turns of a loop work off
* `Sheet.WellFormed.field?_nodes`, `Sheet.indent_line` : the array in the object of a node, and the
  indentation of its line
* `Sheet.traversals_agree`
-/

namespace LosslessCss

open Relation (TransGen)

/-! ### Loops -/

section Loop

variable {σ ρ : Type} {turn : σ → σ ⊕ ρ} {a b c : σ} {m n : Nat}

/-- **A loop gets from one state to another** in at most so many turns. -/
inductive Leads (turn : σ → σ ⊕ ρ) : Nat → σ → σ → Prop where
  | stay (most : Nat) (a : σ) : Leads turn most a a
  | step {most : Nat} {a b c : σ} : turn a = .inl b → Leads turn most b c →
      Leads turn (most + 1) a c

theorem Leads.refl (turn : σ → σ ⊕ ρ) (a : σ) : Leads turn 0 a a := .stay 0 a

theorem Leads.single (h : turn a = .inl b) : Leads turn 1 a b := .step h (.stay 0 b)

theorem Leads.mono (h : Leads turn m a b) (hmn : m ≤ n) : Leads turn n a b := by
  induction h generalizing n with
  | stay => exact .stay n _
  | step hturn _ ih =>
    obtain ⟨rest, rfl⟩ := Nat.exists_eq_add_of_le' hmn
    exact .step hturn (ih (Nat.le_add_left _ rest))

theorem Leads.trans (hab : Leads turn m a b) (hbc : Leads turn n b c) :
    Leads turn (m + n) a c := by
  induction hab with
  | stay => exact hbc.mono (Nat.le_add_left _ _)
  | step hturn _ ih =>
    rw [Nat.add_right_comm]
    exact .step hturn (ih hbc)

/-- A loop that gets to a last state ends there. -/
theorem Leads.loop_eq (h : Leads turn m a b) {result : ρ} (hdone : turn b = .inr result)
    {turns : Nat} (hturns : m + 1 ≤ turns) : loop turn turns a = some result := by
  induction h generalizing turns with
  | stay =>
    obtain ⟨turns, rfl⟩ := Nat.exists_eq_add_of_le' (Nat.le_of_add_left_le hturns)
    rw [loop, hdone]
  | step hturn _ ih =>
    obtain ⟨turns, rfl⟩ := Nat.exists_eq_add_of_le' (Nat.le_of_add_left_le hturns)
    rw [loop, hturn]
    exact ih hdone (by omega)

end Loop

/-! ### Recursion -/

namespace Forest

/-- The lines of a forest whose top nodes have the given depth. -/
def lines (depth : Nat) (f : Forest Node) : String :=
  String.join ((f.outline depth).map fun (depth, n) => n.outlineLine depth)

theorem lines_nil (depth : Nat) : (nil : Forest Node).lines depth = "" := rfl

theorem lines_cons (depth : Nat) (n : Node) (children next : Forest Node) :
    (cons n children next).lines depth =
      n.outlineLine depth ++ (children.lines (depth + 1) ++ next.lines depth) := by
  simp [lines, outline, String.join_cons, String.join_append]

/-- **Where recursion opens and closes nodes**: a node is opened, then the nodes below it are opened
and closed, and if it has a block it is closed. -/
def marks : Forest Entry → List Mark
  | nil => []
  | cons e children next =>
    .opened e.handle ::
      ((if e.node.content.opensBlock then children.marks ++ [.closed e.handle] else []) ++
        next.marks)

theorem prune_of_forall {α : Type} {p : α → Bool} (hp : ∀ a, p a = true) (f : Forest α) :
    f.prune p = f := by
  induction f with
  | nil => rfl
  | cons a children next ihChildren ihNext => rw [prune, if_pos (hp a), ihChildren, ihNext]

/-- It makes no difference which node is the first one to a layout that does not ask for it. -/
theorem print_first {l : Layout}
    (hl : ∀ (n : Node) (depth : Nat) (b b' : Bool), l.leading b depth n = l.leading b' depth n)
    (f : Forest Node) (closed b b' : Bool) (depth : Nat) :
    f.print l closed b depth = f.print l closed b' depth := by
  cases f with
  | nil => rfl
  | cons n children next => rw [print, print, hl n depth b b']

end Forest

/-- **A layout that tells comments from statements** leaves out nothing but comments, and writes no
semicolon behind one.  If it leaves out comments, then it does not ask which node is the first one:
the first node that is written need not be the first one of the sheet. -/
structure Layout.Regular (l : Layout) : Prop where
  isComment (n : Node) : l.keeps n = false → n.content.isComment = true
  head (n : Node) (b b' : Bool) : n.content.isComment = true → l.head b n = l.head b' n
  leading (n : Node) : l.keeps n = false →
    ∀ (m : Node) (depth : Nat) (b b' : Bool), l.leading b depth m = l.leading b' depth m

theorem Layout.regular_faithful (value : String → String) : (faithful value).Regular where
  isComment _ h := by cases h
  head n _ _ h := by
    obtain ⟨content, raws, span⟩ := n
    cases content <;> first | rfl | cases h
  leading _ h := by cases h

theorem Layout.regular_compact (value : String → String) : (compact value).Regular where
  isComment _ := (by simpa [compact] using ·)
  head n _ _ h := by
    obtain ⟨content, raws, span⟩ := n
    cases content <;> first | rfl | cases h
  leading _ _ _ _ _ _ := rfl

theorem Style.regular (style : Style) : style.layout.Regular := by
  rw [layout]
  split
  · exact Layout.regular_compact _
  · exact Layout.regular_faithful _

namespace Sheet

variable {s : Sheet} {h : Handle} {g : Forest Entry}

/-- The trees of a forest stand in the sheet. -/
def Has (s : Sheet) (g : Forest Entry) : Prop :=
  ∀ t ∈ g.subtrees, s.find? t.value.handle = some t

section Has

variable {e : Entry} {below next : Forest Entry} (hg : s.Has (.cons e below next))

include hg

theorem Has.find? : s.find? e.handle = some ⟨e, below⟩ := hg _ List.mem_cons_self

theorem Has.node? : s.node? e.handle = some e.node := node?_of_find? hg.find?

theorem Has.children_eq : s.children e.handle = below.topHandles := children_of_find? hg.find?

theorem Has.inner : s.Has below := fun t ht =>
  hg t (List.mem_cons_of_mem _ (List.mem_append_left _ ht))

theorem Has.behind : s.Has next := fun t ht =>
  hg t (List.mem_cons_of_mem _ (List.mem_append_right _ ht))

end Has

/-- What is below a node stands in the sheet. -/
theorem Has.of_find? (hs : s.WellFormed) {t : Tree Entry} (ht : s.find? h = some t) :
    s.Has t.children := fun _ hu => hs.find?_of_mem_subtrees ht hu

/-! ### Exporting -/

/-- **The turns of an export** put the objects of a forest into the innermost container. -/
theorem export_leads (hs : s.WellFormed) (hg : s.Has g) (n : Node) (waiting : List Handle)
    (nodes : List Json) (outer : List OpenObject) (visited : List Handle) :
    Leads s.exportTurn (2 * g.size) ⟨⟨n, g.topHandles ++ waiting, nodes⟩ :: outer, visited⟩
      ⟨⟨n, waiting, nodes ++ (g.map Entry.node).toJson⟩ :: outer, visited ++ g.handles⟩ := by
  induction g generalizing n waiting nodes outer visited with
  | nil =>
    rw [Forest.map, Forest.toJson, Forest.handles_nil, List.append_nil, List.append_nil]
    exact .refl _ _
  | cons e inner next ihInner ihNext =>
    let object := e.node.toJson (inner.map Entry.node).toJson
    have hfirst : Leads s.exportTurn (2 * inner.size + 2)
        ⟨⟨n, e.handle :: (next.topHandles ++ waiting), nodes⟩ :: outer, visited⟩
        ⟨⟨n, next.topHandles ++ waiting, nodes ++ [object]⟩ :: outer,
          visited ++ [e.handle] ++ inner.handles⟩ := by
      cases hcontainer : e.node.content.isContainer with
      | false =>
        have hnil : inner = .nil := hs.children_eq_nil hg.find? hcontainer
        subst hnil
        refine (Leads.single ?_).mono (Nat.le_add_left 1 1)
        simp [exportTurn, hg.node?, hcontainer, object, Forest.map, Forest.toJson]
      | true =>
        -- The container is put on the stack, is filled, and is handed to the one around it.
        have hfill := ihInner hg.inner e.node [] []
          (⟨n, next.topHandles ++ waiting, nodes⟩ :: outer) (visited ++ [e.handle])
        refine ((Leads.single ?_).trans (hfill.trans (.single ?_))).mono (by omega)
        · simp [exportTurn, hg.node?, hcontainer, openObject, hg.children_eq]
        · simp [exportTurn, object]
    have hrest := ihNext hg.behind n waiting (nodes ++ [object]) outer
      (visited ++ [e.handle] ++ inner.handles)
    rw [Forest.map, Forest.toJson, Forest.handles_cons, Forest.topHandles_cons, Forest.size]
    simpa using (hfirst.trans hrest).mono (by omega)

/-! ### Outlining -/

/-- **The turns of an outline** write the lines of a forest. -/
theorem outline_leads (hg : s.Has g) (depth : Nat) (stack : List (Nat × Handle)) (text : String)
    (visited : List Handle) :
    Leads s.outlineTurn g.size ⟨g.topHandles.map (depth, ·) ++ stack, text, visited⟩
      ⟨stack, text ++ (g.map Entry.node).lines depth, visited ++ g.handles⟩ := by
  induction g generalizing depth stack text visited with
  | nil =>
    rw [Forest.map, Forest.lines_nil, Forest.handles_nil, String.append_empty, List.append_nil]
    exact .refl _ _
  | cons e inner next ihInner ihNext =>
    -- The children take the place of the node on the stack.
    have hline : s.outlineTurn ⟨(depth, e.handle) :: (next.topHandles.map (depth, ·) ++ stack), text,
          visited⟩ =
        .inl ⟨inner.topHandles.map (depth + 1, ·) ++ (next.topHandles.map (depth, ·) ++ stack),
          text ++ e.node.outlineLine depth, visited ++ [e.handle]⟩ := by
      simp [outlineTurn, hg.node?, hg.children_eq]
    have hinner := ihInner hg.inner (depth + 1) (next.topHandles.map (depth, ·) ++ stack)
      (text ++ e.node.outlineLine depth) (visited ++ [e.handle])
    have hnext := ihNext hg.behind depth stack
      (text ++ e.node.outlineLine depth ++ (inner.map Entry.node).lines (depth + 1))
      (visited ++ [e.handle] ++ inner.handles)
    have hall := (Leads.single hline).trans (hinner.trans hnext)
    rw [Forest.map, Forest.lines_cons, Forest.handles_cons, Forest.topHandles_cons, Forest.size]
    simpa [String.append_assoc] using hall.mono (by omega)

/-! ### Printing -/

/-- The handle is the one of a node that a layout prints. -/
def keeps (s : Sheet) (l : Layout) (h : Handle) : Bool := (s.node? h).all l.keeps

theorem kept_eq (l : Layout) (h : Handle) : s.kept l h = (s.children h).filter (s.keeps l) := rfl

section Printing

variable {l : Layout}

/-- Statements among children are statements of the forest. -/
theorem any_isStatement (hg : s.Has g) :
    g.topHandles.any s.isStatement = (g.map Entry.node).hasStatement := by
  induction g with
  | nil => rfl
  | cons e inner next _ ih =>
    rw [Forest.topHandles_cons, List.any_cons, ih hg.behind, isStatement, hg.node?, Forest.map,
      Forest.hasStatement]
    rfl

section Blocks

-- The steps of the children of the node add some text and some marks.
variable {n : Node} {depth most : Nat} {inner : String} {below : List Mark}
  (hinner : ∀ steps text marks, Leads (s.writeTurn l) most
    ⟨s.childSteps (l.closesLast n) (depth + 1) false (s.kept l h) ++ steps, text, marks⟩
    ⟨steps, text ++ inner, marks ++ below⟩)

include hinner

/-- **An open block is finished.**  Its end is reached when the steps of the children are done. -/
theorem block_leads (hblock : n.content.opensBlock = true) (semicolon : Bool) (steps : List Step)
    (text : String) (marks : List Mark) :
    Leads (s.writeTurn l) (most + 1)
      ⟨s.childSteps (l.closesLast n) (depth + 1) false (s.kept l h) ++ .close h n depth :: steps,
        text ++ (l.head semicolon n ++ "\x7b"), marks⟩
      ⟨steps, text ++ l.wrap semicolon depth n (s.children h).isEmpty inner,
        marks ++ (below ++ [.closed h])⟩ := by
  refine (hinner (.close h n depth :: steps) _ marks).trans (.single ?_)
  simp [writeTurn, hblock, Layout.wrap, String.append_assoc]

/-- **What a node adds to the text.** -/
theorem node_leads (hn : s.node? h = some n) (semicolon first : Bool) (steps : List Step)
    (text : String) (marks : List Mark) :
    Leads (s.writeTurn l) (most + 2) ⟨.node h depth semicolon first :: steps, text, marks⟩
      ⟨steps,
        text ++ l.leading first depth n ++ l.wrap semicolon depth n (s.children h).isEmpty inner,
        marks ++ .opened h :: (if n.content.opensBlock then below ++ [.closed h] else [])⟩ := by
  cases hblock : n.content.opensBlock with
  | false =>
    refine (Leads.single ?_).mono (Nat.le_add_left 1 _)
    simp [writeTurn, hn, hblock, Layout.wrap]
  | true =>
    have hrun := block_leads hinner hblock semicolon steps (text ++ l.leading first depth n)
      (marks ++ [.opened h])
    rw [if_pos rfl, List.append_cons]
    refine ((Leads.single ?_).trans hrun).mono (by omega)
    simp [writeTurn, hn, hblock, String.append_assoc]

end Blocks

variable (hl : l.Regular)

include hl

/-- A node that is left out is no statement. -/
theorem any_isStatement_filter (hs : List Handle) :
    (hs.filter (s.keeps l)).any s.isStatement = hs.any s.isStatement := by
  rw [List.any_filter]
  congr 1
  funext h
  cases hkeeps : s.keeps l h with
  | true => rfl
  | false =>
    rw [keeps, Option.all_eq_false] at hkeeps
    obtain ⟨n, hn, hkeeps⟩ := hkeeps
    rw [isStatement, hn, Option.any_some, hl.isComment n (by simpa using hkeeps)]
    rfl

/-- The head of a node comes out the same, whether the last statement is told by its place on the
stack or by what follows it in the forest. -/
theorem head_eq {e : Entry} {inner next : Forest Entry} (hg : s.Has (.cons e inner next))
    (closed : Bool) :
    l.head (closed || !(s.isStatement e.handle &&
        !(next.topHandles.filter (s.keeps l)).any s.isStatement)) e.node =
      l.head (closed || (next.map Entry.node).hasStatement) e.node := by
  rw [any_isStatement_filter hl, any_isStatement hg.behind, isStatement, hg.node?, Option.any_some]
  cases hcontent : e.node.content.isComment with
  | true => exact hl.head _ _ _ hcontent
  | false => simp

/-- **The turns of printing** write the text of a forest. -/
theorem write_leads (hg : s.Has g) (closed first : Bool) (depth : Nat) (steps : List Step)
    (text : String) (marks : List Mark) :
    Leads (s.writeTurn l) (2 * g.size)
      ⟨s.childSteps closed depth first (g.topHandles.filter (s.keeps l)) ++ steps, text, marks⟩
      ⟨steps, text ++ (g.map Entry.node).print l closed first depth,
        marks ++ (g.prune fun e => l.keeps e.node).marks⟩ := by
  induction g generalizing closed first depth steps text marks with
  | nil =>
    rw [Forest.map, Forest.print, Forest.prune, Forest.marks, String.append_empty, List.append_nil]
    exact .stay _ _
  | cons e inner next ihInner ihNext =>
    have hkept : s.keeps l e.handle = l.keeps e.node := by rw [keeps, hg.node?, Option.all_some]
    rw [Forest.map, Forest.print, Forest.prune, Forest.topHandles_cons, List.filter_cons, hkept,
      Forest.size]
    cases hkeeps : l.keeps e.node with
    | false =>
      -- What is left out has no step, so the first step may be the one of a later node.
      have hfirst := Forest.print_first (hl.leading _ hkeeps) (next.map Entry.node) closed first false
        depth
      have hrest := ihNext hg.behind closed first depth steps text marks
      rw [hfirst] at hrest
      simpa using hrest.mono (by omega)
    | true =>
      have hempty : inner.topHandles.isEmpty = (inner.map Entry.node).isEmpty := by
        cases inner <;> rfl
      have hnode := node_leads
        (by rw [kept_eq, hg.children_eq]; exact ihInner hg.inner (l.closesLast e.node) false (depth + 1))
        hg.node? (closed || !(s.isStatement e.handle &&
          !(next.topHandles.filter (s.keeps l)).any s.isStatement)) first
        (s.childSteps closed depth false (next.topHandles.filter (s.keeps l)) ++ steps) text marks
      rw [hg.children_eq, hempty, Layout.wrap, head_eq hl hg closed] at hnode
      have hall := hnode.trans (ihNext hg.behind closed false depth steps _ _)
      simpa [childSteps, Forest.marks, Layout.wrap, String.append_assoc] using hall.mono (by omega)

end Printing

/-! ### Where nodes are opened and closed -/

/-- The nodes below a node as recursion opens and closes them. -/
def marks (s : Sheet) (h : Handle) : List Mark :=
  ((s.find? h).map fun t => t.children.marks).getD []

theorem marks_of_find? {t : Tree Entry} (ht : s.find? h = some t) :
    s.marks h = t.children.marks := by
  rw [marks, ht]
  rfl

/-- **Marks by recursion**: each child is opened, and if it has a block the nodes below it come and
then it is closed. -/
theorem WellFormed.marks_eq (hs : s.WellFormed) {t : Tree Entry} (ht : s.find? h = some t) :
    s.marks h = (s.children h).flatMap fun c => .opened c ::
      if (s.node? c).any (·.content.opensBlock) then s.marks c ++ [.closed c] else [] := by
  rw [marks_of_find? ht, children_of_find? ht]
  have hfound := Has.of_find? hs ht
  generalize t.children = g at hfound
  induction g with
  | nil => rfl
  | cons e inner next _ ih =>
    rw [Forest.marks, Forest.topHandles_cons, List.flatMap_cons, ih hfound.behind, hfound.node?,
      marks_of_find? hfound.find?]
    rfl

/-- A tree below the root that is written without a block has no children. -/
theorem WellFormed.eq_nil_of_leaf (hs : s.WellFormed) {t : Tree Entry} (ht : s.find? h = some t)
    (hroot : h ≠ Sheet.root) (hblock : t.value.node.content.opensBlock = false) : t.children = .nil := by
  have hproper := hs.proper _ (row_mem hs.nodup (node?_of_find? ht))
  rw [← Forest.topHandles_eq_nil_iff, ← children_of_find? ht]
  by_contra hne
  rcases hproper.body hne with hcontent | hopens
  · exact hroot (hproper.root.mp hcontent)
  · exact Bool.eq_false_iff.mp hblock hopens

section Marks

variable (hs : s.WellFormed) (hg : s.Has g) (hroot : root ∉ g.handles)

include hs hg hroot

/-- **Nodes are opened in document order.** -/
theorem filterMap_opened_marks : g.marks.filterMap Mark.opened? = g.handles := by
  induction g with
  | nil => rfl
  | cons e inner next ihInner ihNext =>
    simp only [Forest.handles_cons, List.mem_cons, List.mem_append, not_or] at hroot
    rw [Forest.marks, Forest.handles_cons]
    cases hblock : e.node.content.opensBlock with
    | false =>
      have hnil : inner = .nil := hs.eq_nil_of_leaf hg.find? (Ne.symm hroot.1) hblock
      simp [hnil, Mark.opened?, ihNext hg.behind hroot.2.2]
    | true =>
      simp [List.filterMap_cons, Mark.opened?, ihInner hg.inner hroot.2.1,
        ihNext hg.behind hroot.2.2]

/-- **Each block is closed once.** -/
theorem count_closed_marks (hnodup : g.handles.Nodup) (h : Handle) :
    g.marks.count (.closed h) =
      if h ∈ g.handles ∧ (s.node? h).any (·.content.opensBlock) = true then 1 else 0 := by
  induction g with
  | nil => simp [Forest.marks]
  | cons e inner next ihInner ihNext =>
    obtain ⟨⟨heInner, heNext⟩, hinner, hnext, hapart⟩ := Forest.nodup_cons_iff.mp hnodup
    simp only [Forest.handles_cons, List.mem_cons, List.mem_append, not_or] at hroot
    have hopened : Mark.opened e.handle ≠ .closed h := nofun
    rw [Forest.marks, List.count_cons_of_ne hopened, List.count_append,
      ihNext hg.behind hroot.2.2 hnext]
    have hcount := ihInner hg.inner hroot.2.1 hinner
    by_cases hself : h = e.handle
    · subst hself
      rw [hg.node?, Option.any_some] at hcount ⊢
      cases hblock : e.node.content.opensBlock with
      | false => simp
      | true => simp [hcount, heInner, heNext]
    · have hinside : (if e.node.content.opensBlock then inner.marks ++ [.closed e.handle]
          else []).count (.closed h) = inner.marks.count (.closed h) := by
        cases hblock : e.node.content.opensBlock with
        | false =>
          have hnil : inner = .nil := hs.eq_nil_of_leaf hg.find? (Ne.symm hroot.1) hblock
          simp [hnil, Forest.marks]
        | true => simp [Ne.symm hself]
      rw [hinside, hcount]
      by_cases hin : h ∈ inner.handles
      · simp [hin, hapart h hin]
      · simp [hin, hself]

end Marks

/-! ### Objects and lines of nodes -/

/-- **The object of a node** by recursion over its tree; `null` for a node that was removed. -/
def toJson (s : Sheet) (h : Handle) : Json := ((s.tree? h).map Tree.toJson).getD .null

theorem toJson_of_find? {t : Tree Entry} (ht : s.find? h = some t) :
    s.toJson h = t.value.node.toJson (t.children.map Entry.node).toJson := by
  rw [toJson, tree?, ht]
  rfl

/-- **The nodes in an object** are the objects of the children. -/
theorem WellFormed.toJson_eq (hs : s.WellFormed) {n : Node} (hn : s.node? h = some n) :
    s.toJson h = n.toJson ((s.children h).map s.toJson) := by
  obtain ⟨t, ht⟩ := (isLive_of_node? hn).exists_find?
  obtain rfl : t.value.node = n := Option.some.inj ((node?_of_find? ht).symm.trans hn)
  rw [toJson_of_find? ht, children_of_find? ht]
  have hfound := Has.of_find? hs ht
  congr 1
  generalize t.children = g at hfound
  induction g with
  | nil => rfl
  | cons e inner next _ ih =>
    rw [Forest.map, Forest.toJson, Forest.topHandles_cons, List.map_cons, ih hfound.behind,
      toJson_of_find? hfound.find?]

/-- **The array in an object**: the object of a node that can hold others has the field `nodes` with
the objects of its children, the object of any other node has no such field. -/
theorem WellFormed.field?_nodes (hs : s.WellFormed) {n : Node} (hn : s.node? h = some n) :
    (s.toJson h).field? "nodes" =
      if n.content.isContainer then some (.array ((s.children h).map s.toJson)) else none := by
  rw [hs.toJson_eq hn, Node.field?_nodes]

/-- The line of a node in an outline: two spaces for each of its ancestors, what the node means, and
the end of the line. -/
noncomputable def line (s : Sheet) (h : Handle) : String :=
  ((s.node? h).map fun n =>
    String.ofList (List.replicate (2 * {a | TransGen s.IsParent a h}.ncard) ' ') ++
      n.content.outlineLine ++ "\n").getD ""

/-- **A line is indented by two spaces for each ancestor** and by no more. -/
theorem indent_line {n : Node} (hn : s.node? h = some n) :
    ((s.line h).toList.takeWhile (· == ' ')).length =
      2 * {a | TransGen s.IsParent a h}.ncard := by
  rw [line, hn, Option.map_some, Option.getD_some]
  exact n.content.indent_outlineLine _

/-- **The lines of a forest** are the lines of its nodes, if the nodes at the top have as many
ancestors as their depth. -/
theorem WellFormed.lines_eq (hs : s.WellFormed) (hg : s.Has g) {depth : Nat}
    (hdepth : ∀ h ∈ g.topHandles, (s.ancestry h).length = depth + 1) :
    (g.map Entry.node).lines depth = String.join (g.handles.map s.line) := by
  induction g generalizing depth with
  | nil => rfl
  | cons e inner next ihInner ihNext =>
    simp only [Forest.topHandles_cons, List.forall_mem_cons] at hdepth
    have hcount := hs.ncard_ancestors (isLive_of_node? hg.node?)
    have hinner : ∀ c ∈ inner.topHandles, (s.ancestry c).length = depth + 1 + 1 := by
      intro c hc
      rw [← hg.children_eq] at hc
      rw [hs.ancestry_of_mem_children hc, List.length_cons, hdepth.1]
    have hline : s.line e.handle = e.node.outlineLine depth := by
      rw [line, hg.node?, show {a | TransGen s.IsParent a e.handle}.ncard = depth by omega,
        Option.map_some, Option.getD_some, Node.outlineLine]
    rw [Forest.map, Forest.lines_cons, ihInner hg.inner hinner, ihNext hg.behind hdepth.2,
      Forest.handles_cons, List.map_cons, List.map_append, String.join_cons, String.join_append,
      hline]

/-! ### Whole sheets -/

section Whole

variable (hs : s.WellFormed) {turns : Nat}

include hs

theorem WellFormed.selected_all : s.selected .all = s.below Sheet.root := by
  rw [selected, List.filter_eq_self]
  intro h hh
  obtain ⟨p, -, hp⟩ := TransGen.tail'_iff.mp (hs.mem_below_iff.mp hh)
  obtain ⟨n, hn⟩ := (hs.isLive_of_isParent hp).2.exists_node?
  rw [selects, hn]
  rfl

/-- **A walk shows all nodes** to a visitor that only looks and never has enough. -/
theorem walk_all (hturns : 2 * (s.below root).length + 1 ≤ turns) {σ : Type} {visitor : Visitor σ}
    (hvisitor : visitor.ReadOnly) (hproceed : ∀ h v, (visitor h v).1 = .proceed) (memory : σ) :
    ∃ after, s.walk turns .all visitor.noting (memory, []) =
      (some .proceed, ⟨s, (after, s.below root)⟩) := by
  obtain ⟨shown, verdict, after, hvisits⟩ := hvisitor.exists_visits s memory (s.selected .all)
  rcases hvisits.cut with ⟨rfl, rfl⟩ | ⟨-, -, last, -, m, -, -, hstop⟩
  · refine ⟨after, ?_⟩
    rw [walk_of_visits hs hturns (hvisits.noting []), List.nil_append, hs.selected_all]
  · cases (hproceed last ⟨s, m⟩).symm.trans (congrArg Prod.fst hstop)

/-- **An export writes the object of a node**, and comes to the nodes in it in document order. -/
theorem exportNode_eq {n : Node} (hn : s.node? h = some n)
    (hturns : 2 * (s.below h).length + 1 ≤ turns) :
    s.exportNode turns h = some (s.toJson h, h :: s.below h) := by
  obtain ⟨t, ht⟩ := (isLive_of_node? hn).exists_find?
  obtain rfl : t.value.node = n := Option.some.inj ((node?_of_find? ht).symm.trans hn)
  have hfound := Has.of_find? hs ht
  rw [below_of_find? ht, Forest.handles, List.length_map, Forest.length_preorder] at hturns
  rw [exportNode, hn, toJson_of_find? ht, below_of_find? ht]
  dsimp only
  cases hcontainer : t.value.node.content.isContainer with
  | false =>
    rw [hs.children_eq_nil ht hcontainer]
    rfl
  | true =>
    have hfill := export_leads hs hfound t.value.node [] [] [] [h]
    rw [List.append_nil, ← children_of_find? ht] at hfill
    exact hfill.loop_eq rfl hturns

/-- **An outline writes the line of each node** in document order. -/
theorem outline_eq (hturns : (s.below root).length + 2 ≤ turns) :
    s.outline turns = some (s.attachedTree.outlineText, root :: s.below root) ∧
      s.attachedTree.outlineText = String.join ((root :: s.below root).map s.line) := by
  obtain ⟨t, ht, htree, -⟩ := hs.exists_attachedTree
  have hfound := Has.of_find? hs ht
  have hbelow := below_of_find? ht
  have htext : s.attachedTree.outlineText =
      t.value.node.outlineLine 0 ++ (t.children.map Entry.node).lines 1 := by
    rw [htree, Tree.outlineText, Tree.map, List.map_cons, String.join_cons]
    rfl
  have hnode := node?_of_find? ht
  have hancestry := hs.ancestry_of_mem_topHandles hs.root
  rw [hbelow]
  constructor
  · have hlines := outline_leads hfound 1 [] (t.value.node.outlineLine 0) [root]
    have hfirst : s.outlineTurn ⟨[(0, root)], "", []⟩ =
        .inl ⟨t.children.topHandles.map (1, ·) ++ [], t.value.node.outlineLine 0, [root]⟩ := by
      simp [outlineTurn, hnode, children_of_find? ht]
    rw [hbelow, Forest.handles, List.length_map, Forest.length_preorder] at hturns
    rw [htext]
    exact ((Leads.single hfirst).trans hlines).loop_eq rfl (by omega)
  · have hcount := hs.ncard_ancestors hs.isLive_root
    rw [hancestry, List.length_singleton] at hcount
    have hline : s.line root = t.value.node.outlineLine 0 := by
      rw [line, hnode, show {a | TransGen s.IsParent a root}.ncard = 0 by omega,
        Option.map_some, Option.getD_some, Node.outlineLine]
    have hdepth : ∀ c ∈ t.children.topHandles, (s.ancestry c).length = 1 + 1 := by
      intro c hc
      rw [← children_of_find? ht] at hc
      rw [hs.ancestry_of_mem_children hc, hancestry]
      rfl
    rw [htext, hs.lines_eq hfound hdepth, List.map_cons, String.join_cons, hline]

/-- **Printing writes a sheet**, and opens and closes the nodes that it prints as recursion does. -/
theorem write_of_regular {l : Layout} (hl : l.Regular) {t : Tree Entry} (ht : s.find? root = some t)
    (hturns : 2 * (s.below root).length + 1 ≤ turns) :
    s.write turns l =
      some (s.attachedTree.print l, (t.children.prune fun e => l.keeps e.node).marks) := by
  obtain ⟨u, hu, htree, -⟩ := hs.exists_attachedTree
  obtain rfl : t = u := Option.some.inj (ht.symm.trans hu)
  have hbelow := below_of_find? ht
  have htext := write_leads hl (Has.of_find? hs ht) (l.closesLastOfSheet t.value.node) true 0 [] "" []
  rw [hbelow, Forest.handles, List.length_map, Forest.length_preorder] at hturns
  rw [← children_of_find? ht, List.append_nil] at htext
  rw [write, node?_of_find? ht, Option.getD_some, kept_eq, htext.loop_eq rfl hturns, htree]
  simp [Tree.print, Tree.map]

/-- A layout that leaves out nothing opens and closes all nodes. -/
theorem write_eq {l : Layout} (hkeeps : ∀ n, l.keeps n = true)
    (hcomment : ∀ (n : Node) (b b' : Bool), n.content.isComment = true → l.head b n = l.head b' n)
    (hturns : 2 * (s.below root).length + 1 ≤ turns) :
    s.write turns l = some (s.attachedTree.print l, s.marks root) := by
  have hl : l.Regular := by
    refine ⟨fun n hn => ?_, hcomment, fun n hn => ?_⟩ <;> exact absurd (hkeeps n) (by simp [hn])
  obtain ⟨t, ht, -⟩ := hs.exists_attachedTree
  rw [write_of_regular hs hl ht hturns, marks_of_find? ht,
    Forest.prune_of_forall fun _ => hkeeps _]

end Whole

/-- **All traversals come to the same nodes in the same order.**  The order is document order: each
attached node other than the root once, a node in front of its children, and those in the order of
the child list.

* A walk shows the nodes in this order to a visitor that only looks.
* An export writes their fields in this order, and the array in the object of each node that can hold
  others has the objects of its children.
* An outline writes their lines in this order, each indented by two spaces for each ancestor.
* The faithful layout opens them in this order, and what is written is what recursion writes: a node
  is opened, then comes what is below it, and then its block is closed, once. -/
theorem traversals_agree (hs : s.Reached) {turns : Nat}
    (hturns : 2 * (s.below root).length + 2 ≤ turns) :
    ((s.below root).Nodup ∧
      (∀ h, h ∈ s.below root ↔ s.isAttached h = true ∧ h ≠ root) ∧
      ∀ p, s.below p = (s.children p).flatMap fun c => c :: s.below c) ∧
    (∀ {σ : Type} (visitor : Visitor σ) (memory : σ), visitor.ReadOnly →
      (∀ h v, (visitor h v).1 = .proceed) →
        ∃ after, s.walk turns .all visitor.noting (memory, []) =
          (some .proceed, ⟨s, (after, s.below root)⟩)) ∧
    (s.exportNode turns root = some (s.attachedTree.toJson, root :: s.below root) ∧
      s.attachedTree.toJson = s.toJson root ∧
      ∀ h n, s.node? h = some n →
        s.toJson h = n.toJson ((s.children h).map s.toJson) ∧
        (s.toJson h).field? "nodes" =
          if n.content.isContainer then some (.array ((s.children h).map s.toJson)) else none) ∧
    (s.outline turns = some (s.attachedTree.outlineText, root :: s.below root) ∧
      s.attachedTree.outlineText = String.join ((root :: s.below root).map s.line) ∧
      ∀ h n, s.node? h = some n →
        ((s.line h).toList.takeWhile (· == ' ')).length =
          2 * {a | TransGen s.IsParent a h}.ncard) ∧
    (∀ value, s.write turns (.faithful value) =
      some (s.attachedTree.print (.faithful value), s.marks root)) ∧
    (s.marks root).filterMap Mark.opened? = s.below root ∧
    (∀ h n, s.node? h = some n → s.marks h = (s.children h).flatMap fun c => .opened c ::
      if (s.node? c).any (·.content.opensBlock) then s.marks c ++ [.closed c] else []) ∧
    ∀ h, (s.marks root).count (.closed h) =
      if h ∈ s.below root ∧ (s.node? h).any (·.content.opensBlock) = true then 1 else 0 := by
  have hs := hs.wellFormed
  obtain ⟨t, ht, htree, -⟩ := hs.exists_attachedTree
  have hself : t.value.handle = root := Forest.handle_of_find? ht
  obtain ⟨hroot, hnodup⟩ := List.nodup_cons.mp (Forest.nodup_of_find? hs.nodup ht)
  rw [hself] at hroot
  have hfound := Has.of_find? hs ht
  have hmarks := marks_of_find? ht
  have hbelow := below_of_find? ht
  have hjson : s.attachedTree.toJson = s.toJson root := by
    rw [htree, toJson_of_find? ht]
    rfl
  obtain ⟨houtline, hlines⟩ := outline_eq hs (show (s.below root).length + 2 ≤ turns by omega)
  refine ⟨⟨hs.nodup_below root, fun _ => hs.mem_below_root_iff, hs.below_eq⟩,
    fun visitor memory hvisitor hproceed => walk_all hs (by omega) hvisitor hproceed memory,
    ⟨?_, hjson, fun h n hn => ⟨hs.toJson_eq hn, hs.field?_nodes hn⟩⟩,
    ⟨houtline, hlines, fun h n hn => indent_line hn⟩, fun value => ?_, ?_, fun h n hn => ?_,
    fun h => ?_⟩
  · rw [hjson]
    exact exportNode_eq hs (node?_of_find? ht) (by omega)
  · refine write_eq hs (fun _ => rfl) (fun n b b' hcomment => ?_) (by omega)
    obtain ⟨content, raws, span⟩ := n
    cases content <;> first | rfl | cases hcomment
  · rw [hmarks, hbelow, filterMap_opened_marks hs hfound hroot]
  · obtain ⟨t, ht⟩ := (isLive_of_node? hn).exists_find?
    exact hs.marks_eq ht
  · rw [hmarks, hbelow, count_closed_marks hs hfound hroot hnodup]

theorem traversals_agree_busyOperations :
    ∃ t s, parse busySheet false = .ok t ∧
      busyOperations.foldl Operation.run (Sheet.ofTree t) = s ∧
      s.below root = [5, 7, 8, 1, 2, 3, 6] ∧
      s.exportNode 16 root = some (s.attachedTree.toJson, [0, 5, 7, 8, 1, 2, 3, 6]) ∧
      s.outline 16 = some (s.attachedTree.outlineText, [0, 5, 7, 8, 1, 2, 3, 6]) ∧
      (s.marks root).count (.closed 7) = 1 := by
  have hrun : (parse busySheet false).toOption.any (fun t =>
      let s := busyOperations.foldl Operation.run (Sheet.ofTree t)
      s.below root == [5, 7, 8, 1, 2, 3, 6] &&
        (s.node? 7).any (·.content.opensBlock)) = true := by
    decide +kernel
  obtain ⟨t, ht, hrun⟩ := exists_ok_of_any hrun
  obtain ⟨hbelow, hblock⟩ := Bool.and_eq_true_iff.mp hrun
  have hbelow := beq_iff_eq.mp hbelow
  have hturns : 2 * ((busyOperations.foldl Operation.run (Sheet.ofTree t)).below root).length + 2 ≤
      16 := by
    rw [hbelow]
    decide
  obtain ⟨-, -, ⟨hexport, -⟩, ⟨houtline, -⟩, -, -, -, hclosed⟩ :=
    traversals_agree ((Reached.parsed ht).foldl busyOperations) hturns
  rw [hbelow] at hexport houtline
  refine ⟨t, _, ht, rfl, hbelow, hexport, houtline, ?_⟩
  rw [hclosed, hbelow, if_pos ⟨by decide, hblock⟩]

end Sheet

end LosslessCss
