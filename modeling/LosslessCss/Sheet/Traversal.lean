import LosslessCss.Sheet
import LosslessCss.Print
import LosslessCss.Tree.Json
import LosslessCss.Tree.Outline

/-!
# Traversals that keep a stack

Blocks may be nested to any depth, so a sheet is best traversed by a loop that keeps a stack of what
is left to do.  Like a walk, each loop here asks the sheet for the children of one node after the
other.  What stands on the stack is different each time.

* **Exporting** stacks the containers whose objects are not finished, each with the children that
  wait for their turn and the objects of those that had it.
* **Outlining** stacks nodes with their depths.  The line of a node is written when the node is taken
  off the stack, and its children are put there instead.
* **Printing** stacks steps.  A node is written up to its block, and the end of the block is stacked
  below the steps of the children.

Each loop also notes the nodes in the order in which it comes to them.  It is given a number of
turns, and an answer of `none` means that they did not suffice.

## Main Definitions

* `loop` : a loop of so many turns
* `Sheet.exportNode` : the object of a node
* `Sheet.outline` : the outline of a sheet
* `Sheet.write` : the text of a sheet, and where it opens and closes nodes
* `Sheet.writeNode` : the text of a node
-/

namespace LosslessCss

/-- **A loop** of at most the given number of turns.  A turn goes on with another state, or it ends
the loop with a result. -/
def loop {σ ρ : Type} (turn : σ → σ ⊕ ρ) : Nat → σ → Option ρ
  | 0, _ => none
  | turns + 1, state =>
    match turn state with
    | .inl state => loop turn turns state
    | .inr result => some result

/-! ### Exporting -/

/-- A container whose object is not finished: the children that wait for their turn, and the objects
of the children that had it. -/
structure OpenObject where
  node : Node
  waiting : List Handle
  nodes : List Json

/-- The containers around the next node, from the inside out, and the nodes that had their turn. -/
structure Exporting where
  stack : List OpenObject
  visited : List Handle

namespace Sheet

/-- The object of a container when its fields are known. -/
def openObject (s : Sheet) (h : Handle) (n : Node) : OpenObject := ⟨n, s.children h, []⟩

/-- **A turn of an export.**  The next child is looked at, or the innermost object is finished and
handed to the one around it. -/
def exportTurn (s : Sheet) : Exporting → Exporting ⊕ (Json × List Handle)
  | ⟨[], visited⟩ => .inr (.null, visited)
  | ⟨top :: outer, visited⟩ =>
    match top.waiting with
    | child :: waiting =>
      let top := { top with waiting := waiting }
      match s.node? child with
      | some n =>
        if n.content.isContainer then
          .inl ⟨s.openObject child n :: top :: outer, visited ++ [child]⟩
        else .inl ⟨{ top with nodes := top.nodes ++ [n.toJson []] } :: outer, visited ++ [child]⟩
      | none => .inl ⟨{ top with nodes := top.nodes ++ [.null] } :: outer, visited⟩
    | [] =>
      let object := top.node.toJson top.nodes
      match outer with
      | [] => .inr (object, visited)
      | parent :: outer =>
        .inl ⟨{ parent with nodes := parent.nodes ++ [object] } :: outer, visited⟩

/-- **The object of a node**, and the nodes in it in the order in which their fields were written. -/
def exportNode (s : Sheet) (turns : Nat) (h : Handle) : Option (Json × List Handle) :=
  match s.node? h with
  | some n =>
    if n.content.isContainer then loop s.exportTurn turns ⟨[s.openObject h n], [h]⟩
    else some (n.toJson [], [h])
  | none => some (.null, [])

end Sheet

/-! ### Outlining -/

/-- The nodes that wait for their lines, with their depths, the lines so far, and their nodes. -/
structure Outlining where
  stack : List (Nat × Handle)
  text : String
  visited : List Handle

namespace Sheet

/-- **A turn of an outline.**  The first node gets its line and makes way for its children. -/
def outlineTurn (s : Sheet) : Outlining → Outlining ⊕ (String × List Handle)
  | ⟨[], text, visited⟩ => .inr (text, visited)
  | ⟨(depth, h) :: stack, text, visited⟩ =>
    match s.node? h with
    | some n =>
      .inl ⟨(s.children h).map (depth + 1, ·) ++ stack, text ++ n.outlineLine depth, visited ++ [h]⟩
    | none => .inl ⟨stack, text, visited⟩

/-- **The outline of a sheet**, and its nodes in the order of their lines. -/
def outline (s : Sheet) (turns : Nat) : Option (String × List Handle) :=
  loop s.outlineTurn turns ⟨[(0, root)], "", []⟩

end Sheet

/-! ### Printing -/

/-- What is left to be written. -/
inductive Step where
  /-- A node with the gap in front of it. -/
  | node (h : Handle) (depth : Nat) (semicolon first : Bool)
  /-- The end of the block of a node. -/
  | close (h : Handle) (n : Node) (depth : Nat)

/-- What happens to a node while a sheet is written. -/
inductive Mark where
  | opened (h : Handle)
  | closed (h : Handle)
  deriving DecidableEq, Repr

/-- The node that is opened, if one is. -/
def Mark.opened? : Mark → Option Handle
  | opened h => some h
  | closed _ => none

/-- The steps that are left, the text so far, and what happened to the nodes. -/
structure Writing where
  steps : List Step
  text : String
  marks : List Mark

namespace Sheet

/-- The handle is not the one of a comment. -/
def isStatement (s : Sheet) (h : Handle) : Bool := !(s.node? h).any (·.content.isComment)

/-- The steps of the children of a node.  All of them but the last statement are followed by a
semicolon, and that one is if the block says so. -/
def childSteps (s : Sheet) (closed : Bool) (depth : Nat) : (first : Bool) → List Handle → List Step
  | _, [] => []
  | first, child :: children =>
    let isLast := s.isStatement child && !children.any s.isStatement
    .node child depth (closed || !isLast) first :: s.childSteps closed depth false children

/-- The children of a node that a layout prints. -/
def kept (s : Sheet) (l : Layout) (h : Handle) : List Handle :=
  (s.children h).filter fun child => (s.node? child).all l.keeps

/-- **A turn of printing.** -/
def writeTurn (s : Sheet) (l : Layout) : Writing → Writing ⊕ (String × List Mark)
  | ⟨[], text, marks⟩ => .inr (text, marks)
  | ⟨.node h depth semicolon first :: steps, text, marks⟩ =>
    match s.node? h with
    | some n =>
      let text := text ++ l.leading first depth n ++ l.head semicolon n
      let marks := marks ++ [.opened h]
      if n.content.opensBlock then
        .inl ⟨s.childSteps (l.closesLast n) (depth + 1) false (s.kept l h) ++
          .close h n depth :: steps, text ++ "\x7b", marks⟩
      else .inl ⟨steps, text, marks⟩
    | none => .inl ⟨steps, text ++ l.leading first depth { content := .root }, marks⟩
  | ⟨.close h n depth :: steps, text, marks⟩ =>
    .inl ⟨steps, text ++ l.foot (s.children h).isEmpty depth n ++ "\x7d", marks ++ [.closed h]⟩

/-- **The text of a sheet**, and what happened to its nodes on the way. -/
def write (s : Sheet) (turns : Nat) (l : Layout) : Option (String × List Mark) :=
  let n := (s.node? root).getD { content := .root }
  (loop (s.writeTurn l) turns
    ⟨s.childSteps (l.closesLastOfSheet n) 0 true (s.kept l root), "", []⟩).map
    fun (text, marks) => (text ++ l.footOfSheet n, marks)

/-- A node that was just opened, with nothing in front of it and nothing to be written behind it. -/
def opened (s : Sheet) (l : Layout) (semicolon : Bool) (depth : Nat) (h : Handle) : Writing :=
  match s.node? h with
  | some n =>
    if n.content.opensBlock then
      ⟨s.childSteps (l.closesLast n) (depth + 1) false (s.kept l h) ++ [.close h n depth],
        l.head semicolon n ++ "\x7b", [.opened h]⟩
    else ⟨[], l.head semicolon n, [.opened h]⟩
  | none => ⟨[], "", []⟩

/-- **The text of a node** as it stands in the sheet, without the gap in front of it.  The root has
the text of the sheet. -/
def writeNode (s : Sheet) (turns : Nat) (l : Layout) (h : Handle) : Option (String × List Mark) :=
  if h = root then s.write turns l
  else loop (s.writeTurn l) turns (s.opened l l.closesAlone (s.depth h) h)

end Sheet

end LosslessCss
