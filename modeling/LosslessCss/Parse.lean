import LosslessCss.Token.Reader
import LosslessCss.Node
import LosslessCss.Statement
import LosslessCss.Tree.Forest

/-!
# From tokens to a tree

The parser is a state that each token moves one step (`Parse.State.step`).  Tokens of a statement
are collected until something ends it: a semicolon outside all parentheses and brackets, an opening
brace, a closing brace, or the end of the source.  Then the collected run becomes a rule, an at-rule
or a declaration.  Text that belongs to no node waits in `pending` and becomes the gap in front of
the next node, or in front of the end of the block.

## What counts as an error

A strict parse fails at the first violation in reading order: an unclosed string, comment or
address; a declaration without a colon or without a property; a closing brace with nothing to close;
and, when all tokens are read, a block that is still open.  A lenient parse cannot fail: it keeps
the text of what it does not understand as part of the next gap and closes open blocks at the end.

## Main Definitions

* `ParseError` : the violations, with `position` and `message`
* `Parse.State`, `Parse.State.step`, `Parse.State.finish`
* `parse` : a source as a tree of nodes

## Design Notes

The current block is a field of its own, apart from the blocks around it, so there always is one.
The children of a block are collected latest first, as are the tokens of a statement.
-/

namespace LosslessCss

/-- A violation of the grammar and the place where it is reported. -/
inductive ParseError where
  | lexical (error : LexicalError)
  | unexpectedCloseBrace (position : Position)
  | unclosedBlock (position : Position)
  | missingColon (text : String) (position : Position)
  | missingProperty (position : Position)
  deriving DecidableEq, Repr

namespace ParseError

/-- Where the error is reported. -/
def position : ParseError → Position
  | lexical e => e.position
  | unexpectedCloseBrace p => p
  | unclosedBlock p => p
  | missingColon _ p => p
  | missingProperty p => p

/-- The text of the message. -/
def message : ParseError → String
  | lexical e => e.message
  | unexpectedCloseBrace p => "unexpected `\x7d` at " ++ p.name
  | unclosedBlock p => "unclosed block at " ++ p.name
  | missingColon text p => "missing `:` in `" ++ text ++ "` at " ++ p.name
  | missingProperty p => "missing property name at " ++ p.name

end ParseError

namespace Parse

/-- A block that is being read: its node, where it starts, and its children so far, the latest
first. -/
structure Block where
  node : Node
  start : Position
  children : List (Tree Node)
  deriving DecidableEq, Repr

/-- The state of a parse between two tokens. -/
structure State where
  /-- The innermost open block. -/
  block : Block
  /-- The blocks around it, from the inside out.  The last one is the root. -/
  outer : List Block
  /-- The statement so far, the latest token first. -/
  buffer : List Token
  /-- Parentheses and brackets open in the statement. -/
  depth : Nat
  /-- Text that belongs to no node yet. -/
  pending : String
  /-- The last statement of the current block was ended by a semicolon. -/
  semicolon : Bool
  deriving DecidableEq, Repr

namespace State

/-- Nothing is read; only the root is open. -/
def start : State where
  block := ⟨{ content := .root }, .start, []⟩
  outer := []
  buffer := []
  depth := 0
  pending := ""
  semicolon := false

/-- Text that belongs to no node waits for the next one. -/
def keep (s : State) (text : String) : State := { s with pending := s.pending ++ text }

/-- Adds a token to the statement. -/
def push (s : State) (t : Token) : State :=
  { s with
    buffer := t :: s.buffer
    depth := match t.kind with
      | .parenOpen | .bracketOpen => s.depth + 1
      | .parenClose | .bracketClose => s.depth - 1
      | _ => s.depth }

/-- The pending text becomes the gap in front of a node. -/
def placed (s : State) (node : Node) : Node :=
  { node with raws := { node.raws with before := some s.pending } }

/-- Adds a node without children to the current block.  A comment is no statement, so it leaves open
whether the last statement has a semicolon. -/
def attach (s : State) (node : Node) : State :=
  { s with
    block := { s.block with children := ⟨s.placed node, .nil⟩ :: s.block.children }
    pending := ""
    semicolon := s.semicolon && node.content.isComment }

/-- A comment becomes a node. -/
def comment (s : State) (t : Token) : State :=
  let parts := CommentParts.ofText t.text
  s.attach
    { content := .comment parts.text
      raws := { left := some parts.left, right := some parts.right }
      span := some t.span }

/-- An opening brace: the statement is the head of a block, and the block is the current one. -/
def openBlock (s : State) (brace : Token) : State :=
  let run := s.buffer.reverse
  let content := Statement.content run
  let start := (run.head?.getD brace).start
  let between := some (Token.concat (Statement.gap run))
  let span := some ⟨brace.span.source, start, brace.stop⟩
  let node : Node :=
    if content.head?.any (·.kind == .atWord) then
      let head := AtRuleHead.ofTokens content
      { content := .atRule head.name head.params true
        raws := { afterName := some head.afterName, between := between }
        span := span }
    else
      { content := .rule (Token.concat content)
        raws := { between := between }
        span := span }
  { block := ⟨s.placed node, start, []⟩
    outer := s.block :: s.outer
    buffer := []
    depth := 0
    pending := ""
    semicolon := false }

/-- The node of a block that ends: the pending text is the gap in front of its end. -/
def ended (s : State) : Node :=
  { s.block.node with
    raws := { s.block.node.raws with after := some s.pending, semicolon := some s.semicolon } }

/-- Ends the current block at the given place, unless it is the root. -/
def close (s : State) (stop : Position) : State :=
  match s.outer with
  | [] => s
  | parent :: outer =>
    let node := { s.ended with span := s.ended.span.map fun span => { span with stop := stop } }
    { s with
      block :=
        { parent with
          children := ⟨node, .ofLatestFirst s.block.children⟩ :: parent.children }
      outer := outer
      pending := ""
      semicolon := false }

/-- The statement becomes a node.  `semicolon?` is the token that ended it, if that was a semicolon;
then the blank space at the end of the statement is given to `node`, and otherwise it waits for the
next gap. -/
def completed (s : State) (first : Token) (run : List Token) (semicolon? : Option Token)
    (node : Option String → Node) : State :=
  let gap := Token.concat (Statement.gap run)
  let last := (Statement.content run).getLast?.getD first
  let span := some ⟨first.span.source, first.start, (semicolon?.getD last).stop⟩
  let s' := s.attach { node (some (if semicolon?.isSome then gap else "")) with span := span }
  { s' with
    buffer := []
    depth := 0
    pending := if semicolon?.isSome then "" else gap
    semicolon := semicolon?.isSome }

/-- **The statement is over.**  A run that starts with an at-word is an at-rule without a body; any
other is a declaration or, if it is none, an error or text that is kept. -/
def endStatement (lenient : Bool) (s : State) (semicolon? : Option Token) :
    Except ParseError State :=
  match s.buffer.reverse with
  | [] => .ok s
  | first :: others =>
    let run := first :: others
    let content := Statement.content run
    if first.kind = .atWord then
      let head := AtRuleHead.ofTokens content
      .ok <| s.completed first run semicolon? fun gap =>
        { content := .atRule head.name head.params false
          raws := { afterName := some head.afterName, between := gap } }
    else
      match DeclarationParts.ofTokens content with
      | .ok parts =>
        .ok <| s.completed first run semicolon? fun gap =>
          { content := .declaration parts.property parts.value parts.important.isSome
            raws :=
              { between := some parts.between
                important := parts.important
                afterValue := gap } }
      | .error fault =>
        if lenient then
          .ok <| { s with buffer := [], depth := 0 }.keep
            (Token.concat run ++ (semicolon?.map Token.text).getD "")
        else
          match fault with
          | .missingColon => .error (.missingColon (Token.concat content) first.start)
          | .missingProperty => .error (.missingProperty first.start)

/-- A closing brace: with only the root open it has nothing to close. -/
def closeBlock (lenient : Bool) (s : State) (brace : Token) : Except ParseError State :=
  if s.outer.isEmpty then
    if lenient then .ok (s.keep brace.text) else .error (.unexpectedCloseBrace brace.start)
  else .ok (s.close brace.stop)

/-- **One token.**  Between statements blank space and semicolons are kept as text and a comment is
a node; inside a statement a semicolon ends it only outside all parentheses and brackets. -/
def step (lenient : Bool) (s : State) (t : Token) : Except ParseError State :=
  if s.buffer.isEmpty then
    match t.kind with
    | .space | .semicolon => .ok (s.keep t.text)
    | .comment => .ok (s.comment t)
    | .braceOpen => .ok (s.openBlock t)
    | .braceClose => s.closeBlock lenient t
    | _ => .ok (s.push t)
  else
    match t.kind with
    | .semicolon => if s.depth = 0 then s.endStatement lenient (some t) else .ok (s.push t)
    | .braceOpen => .ok (s.openBlock t)
    | .braceClose => do (← s.endStatement lenient none).closeBlock lenient t
    | _ => .ok (s.push t)

/-- Ends all blocks but the root, from the inside out. -/
def closeAll (s : State) (stop : Position) : State :=
  s.outer.foldl (fun s _ => s.close stop) s

/-- **The end of the source** ends the statement and, in a lenient parse, all blocks. -/
def finish (source : Source) (lenient : Bool) (s : State) : Except ParseError (Tree Node) := do
  let s ← if s.buffer.isEmpty then pure s else s.endStatement lenient none
  if !s.outer.isEmpty && !lenient then throw (.unclosedBlock s.block.start)
  let s := s.closeAll source.endPosition
  return {
    value := { s.ended with span := some ⟨source.id, .start, source.endPosition⟩ }
    children := .ofLatestFirst s.block.children }

end State

end Parse

/-- **A source as a tree of nodes**, or the first violation in it. -/
def parse (source : Source) (lenient : Bool) : Except ParseError (Tree Node) := do
  let lexed := tokenize source lenient
  let s ← lexed.tokens.foldlM (Parse.State.step lenient) .start
  match lexed.failure with
  | some e => throw (.lexical e)
  | none => s.finish source lenient

end LosslessCss
