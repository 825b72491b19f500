import LosslessCss.Sheet

/-!
# Structural edits

Nodes are moved to a `Place`: to the end or the start of a container, or next to a sibling.  Moving
takes a node with everything below it out of where it stands and puts it down again.  Taking it out
is also an edit of its own (`Sheet.detach`), and so is giving it up for good (`Sheet.remove`).

An edit either happens as a whole or fails and changes nothing.

## The order of the checks

A place next to a sibling without a parent fails first; then the root as the node to be moved; then
a node, and a container, that was removed; then a container that cannot hold children; and last a
place inside the node that is moved.

## Main Definitions

* `Place`, `EditError`
* `Sheet.move`, `Sheet.detach`, `Sheet.remove`
* `Sheet.append`, `Sheet.prepend`, `Sheet.insertBefore`, `Sheet.insertAfter`
-/

namespace LosslessCss

/-- Where a node is put. -/
inductive Place where
  | lastIn (parent : Handle)
  | firstIn (parent : Handle)
  | before (sibling : Handle)
  | after (sibling : Handle)
  deriving DecidableEq, Repr

/-- The node that a place refers to. -/
def Place.anchor : Place → Handle
  | lastIn h | firstIn h | before h | after h => h

/-- The forest with a tree at a place; the tree is lost if the place refers to nothing. -/
def Forest.insert (place : Place) (t : Tree Entry) : Forest Entry → Forest Entry
  | nil => nil
  | cons e children next =>
    if e.handle = place.anchor then
      match place with
      | .lastIn _ => cons e (children ++ cons t.value t.children nil) next
      | .firstIn _ => cons e (cons t.value t.children children) next
      | .before _ => cons t.value t.children (cons e children next)
      | .after _ => cons e children (cons t.value t.children next)
    else cons e (children.insert place t) (next.insert place t)

/-- Why an edit fails, with the handle of the node that it fails for. -/
inductive EditError where
  | removed (node : Handle)
  | notAContainer (node : Handle)
  | rootNode
  | noParent (node : Handle)
  | cycle (node : Handle)
  deriving DecidableEq, Repr

/-- The text of the message. -/
def EditError.message : EditError → String
  | removed h => s!"node #{h} does not belong to this stylesheet or was removed"
  | notAContainer h => s!"node #{h} cannot hold children"
  | rootNode => "the root node cannot be moved, detached or removed"
  | noParent h => s!"node #{h} has no parent to insert next to"
  | cycle h => s!"inserting #{h} would place it inside itself"

namespace Sheet

/-- A node that can be moved is not the root and was not removed. -/
def checkMovable (s : Sheet) (h : Handle) : Except EditError (Tree Entry) :=
  if h = root then .error .rootNode
  else
    match s.find? h with
    | some t => .ok t
    | none => .error (.removed h)

/-- The container that a place is in. -/
def container (s : Sheet) : Place → Except EditError Handle
  | .lastIn parent | .firstIn parent => .ok parent
  | .before sibling | .after sibling =>
    match s.parent? sibling with
    | some parent => .ok parent
    | none => .error (.noParent sibling)

/-- The container is the node that is to be put into it, or stands inside that node.  Nothing stands
inside a node without children, so then there is no need to look upwards from the container. -/
def encloses (s : Sheet) (t : Tree Entry) (parent : Handle) : Bool :=
  if t.children.isEmpty then parent == t.value.handle
  else (s.ancestry parent).contains t.value.handle

/-- The node can be put into the container: the answer is the tree to be moved. -/
def checkInsertion (s : Sheet) (parent h : Handle) : Except EditError (Tree Entry) := do
  let t ← s.checkMovable h
  match s.node? parent with
  | none => throw (.removed parent)
  | some node =>
    if !node.content.isContainer then throw (.notAContainer parent)
    else if s.encloses t parent then throw (.cycle h)
    else return t

/-- An at-rule that holds something has a body. -/
def giveBody (n : Node) : Node :=
  match n.content with
  | .atRule name params _ => { n with content := .atRule name params true }
  | _ => n

/-- The sheet after a move.  Next to itself a node already stands; an at-rule that is named as the
container gets a body. -/
def moved (s : Sheet) (place : Place) (t : Tree Entry) : Sheet :=
  let put : Sheet := { s with trees := (s.trees.erase t.value.handle).insert place t }
  match place with
  | .lastIn parent | .firstIn parent => put.update parent giveBody
  | .before sibling | .after sibling => if sibling = t.value.handle then s else put

/-- **Moves a node to a place**, with everything below it. -/
def move (s : Sheet) (place : Place) (h : Handle) : Except EditError Sheet := do
  let parent ← s.container place
  let t ← s.checkInsertion parent h
  return s.moved place t

/-- Makes a node the last child of a container. -/
def append (s : Sheet) (parent h : Handle) : Except EditError Sheet := s.move (.lastIn parent) h

/-- Makes a node the first child of a container. -/
def prepend (s : Sheet) (parent h : Handle) : Except EditError Sheet := s.move (.firstIn parent) h

/-- Puts a node in front of another one. -/
def insertBefore (s : Sheet) (sibling h : Handle) : Except EditError Sheet :=
  s.move (.before sibling) h

/-- Puts a node behind another one. -/
def insertAfter (s : Sheet) (sibling h : Handle) : Except EditError Sheet :=
  s.move (.after sibling) h

/-- **Takes a node out.**  It stays usable, with everything below it. -/
def detach (s : Sheet) (h : Handle) : Except EditError Sheet := do
  let t ← s.checkMovable h
  return { s with trees := s.trees.erase h ++ .cons t.value t.children .nil }

/-- **Gives a node up**, with everything below it. -/
def remove (s : Sheet) (h : Handle) : Except EditError Sheet := do
  let _ ← s.checkMovable h
  return { s with trees := s.trees.erase h }

end Sheet

end LosslessCss
