import LosslessCss.Sheet
import LosslessCss.Text.Ascii

/-!
# Walks

A walk passes the nodes below the root in document order and shows some of them to a visitor, who
may edit the sheet while the walk goes on.  The children of a container are listed when the walk
enters it.  A child that has left the container before its turn is passed over, and a node that has
left while it was visited is not entered.

A visitor can keep a walk going for ever, by putting a new node into each node that it visits.  So a
walk is given a number of turns, and an answer of `none` means that they did not suffice.

## Main Definitions

* `Walker` : which nodes are shown
* `Verdict` : what the visitor wants next
* `Sheet.walk`
* `Forest.passed`, `Stats.ofTree` : the nodes of an unedited walk, and how many there are of each
  kind
-/

namespace LosslessCss

/-- Which nodes a walk shows to its visitor. -/
inductive Walker where
  | all
  | rules
  | declarations
  /-- Declarations of one property. -/
  | declarationsOf (property : String)
  | atRules
  /-- At-rules of one name, in any case. -/
  | atRulesNamed (name : String)
  | comments
  deriving DecidableEq, Repr

/-- The node is shown. -/
def Walker.selects (w : Walker) (n : Node) : Bool :=
  match w, n.content with
  | all, _ => true
  | rules, content => content.isRule
  | declarations, content => content.isDeclaration
  | declarationsOf wanted, .declaration property _ _ => property == wanted
  | atRules, content => content.isAtRule
  | atRulesNamed wanted, .atRule name _ _ => Text.eqIgnoringCase name.toList wanted.toList
  | comments, content => content.isComment
  | _, _ => false

/-- What a visitor wants next. -/
inductive Verdict where
  | proceed
  | stop
  deriving DecidableEq, Repr

/-- A container that a walk is in, and those of its children that have not had their turn. -/
structure Frame where
  container : Handle
  waiting : List Handle
  deriving DecidableEq, Repr

/-- The sheet, and what the visitor keeps in mind. -/
structure Visit (σ : Type) where
  sheet : Sheet
  memory : σ

/-- A visitor answers each node with a verdict, and may change the sheet. -/
abbrev Visitor (σ : Type) := Handle → Visit σ → Verdict × Visit σ

namespace Sheet

/-- The frame of a container that the walk enters. -/
def enter (s : Sheet) (h : Handle) : Frame := ⟨h, s.children h⟩

/-- Shows a child to the visitor, if the walker selects it. -/
def offer {σ : Type} (w : Walker) (visitor : Visitor σ) (child : Handle) (v : Visit σ) :
    Verdict × Visit σ :=
  if (v.sheet.node? child).any w.selects then visitor child v else (.proceed, v)

/-- The frames behind a child that had its turn: the child itself is entered if it is a container
that still stands in its place. -/
def descend (s : Sheet) (parent child : Handle) (frames : List Frame) : List Frame :=
  if s.parent? child = some parent ∧ (s.node? child).any (·.content.isContainer) then
    s.enter child :: frames
  else frames

/-- The turns of a walk, from the innermost frame outwards. -/
def walkFrames {σ : Type} (w : Walker) (visitor : Visitor σ) :
    Nat → List Frame → Visit σ → Option Verdict × Visit σ
  | _, [], v => (some .proceed, v)
  | 0, _ :: _, v => (none, v)
  | turns + 1, ⟨_, []⟩ :: frames, v => walkFrames w visitor turns frames v
  | turns + 1, ⟨parent, child :: waiting⟩ :: frames, v =>
    let frames := ⟨parent, waiting⟩ :: frames
    if v.sheet.parent? child ≠ some parent then walkFrames w visitor turns frames v
    else
      match offer w visitor child v with
      | (.stop, v) => (some .stop, v)
      | (.proceed, v) => walkFrames w visitor turns (v.sheet.descend parent child frames) v

/-- **A walk** of at most the given number of turns: the last verdict, the sheet, and what the
visitor has in mind. -/
def walk {σ : Type} (turns : Nat) (w : Walker) (visitor : Visitor σ) (s : Sheet) (memory : σ) :
    Option Verdict × Visit σ :=
  walkFrames w visitor turns [s.enter root] ⟨s, memory⟩

end Sheet

/-! ### Counting -/

/-- The nodes that a walk passes if nothing is edited: document order, without what stands below a
node that cannot hold children. -/
def Forest.passed : Forest Node → List Node
  | nil => []
  | cons n children next =>
    n :: ((if n.content.isContainer then children.passed else []) ++ next.passed)

/-- How many nodes of each kind a walk passes. -/
structure Stats where
  rules : Nat
  atRules : Nat
  declarations : Nat
  comments : Nat
  deriving DecidableEq, Repr

/-- Each node that a walk passes counts once. -/
def Stats.ofTree (t : Tree Node) : Stats :=
  let count (w : Walker) : Nat := t.children.passed.countP w.selects
  { rules := count .rules
    atRules := count .atRules
    declarations := count .declarations
    comments := count .comments }

end LosslessCss
