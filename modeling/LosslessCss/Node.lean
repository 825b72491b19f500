import LosslessCss.Source

/-!
# Nodes of a style sheet

A node is what a statement, a block or a comment amounts to (`Content`), together with two things
that have no meaning but make printing exact: the text between the meaningful parts as it was
written (`Raws`), and the span that the node takes up in its source.

A node that nobody wrote has neither.  Printing falls back to a default layout for each missing gap,
so a missing gap and an empty one differ.

## Main Definitions

* `Content` : root, at-rule, rule, declaration or comment with its meaningful texts
* `Raws` : the gaps of a node
* `Node` : the three together
-/

namespace LosslessCss

/-- The text of the gaps around and inside a node, each as it was written, if it was. -/
structure Raws where
  /-- In front of the node. -/
  before : Option String := none
  /-- Between the head of a node and its block, its end or its value. -/
  between : Option String := none
  /-- In front of the closing brace, or of the end of the source. -/
  after : Option String := none
  /-- Between the name and the parameters of an at-rule. -/
  afterName : Option String := none
  /-- The last statement of the block has a semicolon. -/
  semicolon : Option Bool := none
  /-- The mark of an important declaration, with the space in front of it. -/
  important : Option String := none
  /-- Between a value and its semicolon. -/
  afterValue : Option String := none
  /-- Between the opening mark of a comment and its text. -/
  left : Option String := none
  /-- Between the text of a comment and its closing mark. -/
  right : Option String := none
  deriving DecidableEq, Repr

/-- What a node means. -/
inductive Content where
  | root
  | atRule (name params : String) (hasBody : Bool)
  | rule (selector : String)
  | declaration (property value : String) (important : Bool)
  | comment (text : String)
  deriving DecidableEq, Repr

namespace Content

/-- The kind of a node as documents name it. -/
def kindName : Content → String
  | root => "root"
  | atRule .. => "atrule"
  | rule _ => "rule"
  | declaration .. => "decl"
  | comment _ => "comment"

/-- Root, rules and at-rules can hold other nodes. -/
def isContainer : Content → Bool
  | root | atRule .. | rule _ => true
  | declaration .. | comment _ => false

def isRule : Content → Bool
  | rule _ => true
  | _ => false

def isAtRule : Content → Bool
  | atRule .. => true
  | _ => false

def isDeclaration : Content → Bool
  | declaration .. => true
  | _ => false

def isComment : Content → Bool
  | comment _ => true
  | _ => false

/-- The node is written with a block: a rule, or an at-rule that has a body. -/
def opensBlock : Content → Bool
  | rule _ => true
  | atRule _ _ hasBody => hasBody
  | _ => false

end Content

/-- A node of a style sheet. -/
structure Node where
  content : Content
  raws : Raws := {}
  span : Option Span := none
  deriving DecidableEq, Repr

end LosslessCss
