import LosslessCss.Node
import LosslessCss.Tree.Forest
import LosslessCss.Value.Compact
import LosslessCss.Value.Length

/-!
# Printing

A tree is printed by one recursion over its forest.  What differs between the ways of printing is a
record of decisions, a `Layout`: what stands in front of a node, how its head is written, what
stands in front of a closing brace, and which nodes are left out.  There are two layouts.

* **The faithful layout** writes each gap as it was read.  A node that nobody wrote gets a line of
  its own, indented by four spaces per level.
* **The compact layout** leaves out all gaps and comments and compacts selectors, parameters and
  values.

Both print the value of a declaration through the same function `value`, which is how lengths are
converted while printing.

## Semicolons

A declaration or an at-rule without a body is ended by a semicolon, except that the last statement
of a container may go without.  Whether it does is the decision `closesLast` of the layout.
Comments are no statements: a statement with only comments behind it is the last one.

## Main Definitions

* `Layout`, `Layout.faithful`, `Layout.compact`
* `Forest.print`, `Tree.print` : the text of the children of a node, of a whole tree
* `Tree.printAlone` : the text of one node as it stands at a given depth
* `Style`, `Style.layout` : the layout that a set of options asks for
-/

namespace LosslessCss

/-! ### Semicolons -/

/-- Among the trees at the top is one that is no comment. -/
def Forest.hasStatement : Forest Node → Bool
  | nil => false
  | cons n _ next => !n.content.isComment || next.hasStatement

/-! ### Layouts -/

/-- The decisions that make up a way of printing. -/
structure Layout where
  /-- The node is printed. -/
  keeps : Node → Bool
  /-- What stands in front of a node at a depth; `first` marks the first node of the sheet. -/
  leading : (first : Bool) → (depth : Nat) → Node → String
  /-- The text of a node up to its block, or all of it, with a semicolon if one is asked for. -/
  head : (semicolon : Bool) → Node → String
  /-- What stands between the last child and the closing brace. -/
  foot : (isEmpty : Bool) → (depth : Nat) → Node → String
  /-- The last statement in the block of a node has a semicolon. -/
  closesLast : Node → Bool
  /-- The last statement of the sheet has a semicolon. -/
  closesLastOfSheet : Node → Bool
  /-- What stands at the end of the sheet. -/
  footOfSheet : Node → String
  /-- A node that is printed alone has a semicolon. -/
  closesAlone : Bool

namespace Layout

/-- A new line for a node that nobody wrote. -/
def newLine (depth : Nat) : String := String.ofList ('\n' :: List.replicate (4 * depth) ' ')

/-- A semicolon, if one is asked for. -/
def semicolonIf (semicolon : Bool) : String := if semicolon then ";" else ""

/-- The head of a node with its gaps; missing gaps get the default. -/
def faithfulHead (value : String → String) (semicolon : Bool) (n : Node) : String :=
  match n.content with
  | .root => ""
  | .atRule name params hasBody =>
    "@" ++ name ++ n.raws.afterName.getD (if params.isEmpty then "" else " ") ++ params ++
      n.raws.between.getD (if hasBody then " " else "") ++
      (if hasBody then "" else semicolonIf semicolon)
  | .rule selector => selector ++ n.raws.between.getD " "
  | .declaration property text important =>
    property ++ n.raws.between.getD ": " ++ value text ++
      (if important then n.raws.important.getD " !important" else "") ++
      (if semicolon then n.raws.afterValue.getD "" ++ ";" else "")
  | .comment text => "/*" ++ n.raws.left.getD " " ++ text ++ n.raws.right.getD " " ++ "*/"

/-- **The faithful layout**: every gap as it was read. -/
def faithful (value : String → String) : Layout where
  keeps _ := true
  leading first depth n := n.raws.before.getD (if first then "" else newLine depth)
  head := faithfulHead value
  foot isEmpty depth n := n.raws.after.getD (if isEmpty then "" else newLine depth)
  closesLast n := n.raws.semicolon.getD false
  closesLastOfSheet n := n.raws.semicolon.getD false
  footOfSheet n := n.raws.after.getD ""
  closesAlone := true

/-- The head of a node without any gap. -/
def compactHead (value : String → String) (semicolon : Bool) (n : Node) : String :=
  match n.content with
  | .root => ""
  | .atRule name params hasBody =>
    let params := Value.compactParams params
    "@" ++ name ++ (if params.isEmpty then "" else " " ++ params) ++
      (if hasBody then "" else semicolonIf semicolon)
  | .rule selector => Value.compactSelector selector
  | .declaration property text important =>
    property ++ ":" ++ Value.compactValue (value text) ++
      (if important then "!important" else "") ++ semicolonIf semicolon
  | .comment text => "/*" ++ n.raws.left.getD " " ++ text ++ n.raws.right.getD " " ++ "*/"

/-- **The compact layout**: no gap, no comment, and the last statement of a block without a
semicolon. -/
def compact (value : String → String) : Layout where
  keeps n := !n.content.isComment
  leading _ _ _ := ""
  head := compactHead value
  foot _ _ _ := ""
  closesLast _ := false
  closesLastOfSheet _ := true
  footOfSheet _ := ""
  closesAlone := false

end Layout

/-! ### Printing trees -/

/-- The text of a node at a depth, where `inner` is the text of its children. -/
def Layout.wrap (l : Layout) (semicolon : Bool) (depth : Nat) (n : Node) (isEmpty : Bool)
    (inner : String) : String :=
  l.head semicolon n ++
    if n.content.opensBlock then "\x7b" ++ inner ++ l.foot isEmpty depth n ++ "\x7d" else ""

/-- **The text of the trees of a forest** at a depth.  `closed` tells whether the last statement has
a semicolon, `first` whether the forest starts the sheet. -/
def Forest.print (l : Layout) (closed first : Bool) (depth : Nat) : Forest Node → String
  | nil => ""
  | cons n children next =>
    (if l.keeps n then
      l.leading first depth n ++
        l.wrap (closed || next.hasStatement) depth n children.isEmpty
          (children.print l (l.closesLast n) false (depth + 1))
    else "") ++
      next.print l closed false depth

/-- **The text of a sheet**, given as the tree of its root. -/
def Tree.print (l : Layout) (t : Tree Node) : String :=
  t.children.print l (l.closesLastOfSheet t.value) true 0 ++ l.footOfSheet t.value

/-- The text of one node as it stands at a depth, without the gap in front of it. -/
def Tree.printAlone (l : Layout) (depth : Nat) (t : Tree Node) : String :=
  l.wrap l.closesAlone depth t.value t.children.isEmpty
    (t.children.print l (l.closesLast t.value) false (depth + 1))

/-! ### Options -/

/-- The size of a root unit in pixels, unless something else is asked for. -/
def defaultRootSize : Nat := 16

/-- How a sheet is to be printed. -/
structure Style where
  /-- Use the compact layout. -/
  minimize : Bool := false
  /-- Convert pixel lengths to root units. -/
  pxToRem : Bool := false
  /-- Pixels per root unit. -/
  rootSize : Nat := defaultRootSize
  deriving DecidableEq, Repr

namespace Style

/-- What becomes of the value of a declaration. -/
def value (style : Style) (text : String) : String :=
  if style.pxToRem then Value.pxToRem style.rootSize text else text

/-- The layout that the options ask for. -/
def layout (style : Style) : Layout :=
  if style.minimize then .compact style.value else .faithful style.value

end Style

end LosslessCss
