import LosslessCss.Parse
import LosslessCss.Sheet.Edit

/-!
# A parser that checks what it relies on

A parser can put each node into a sheet as soon as the head of the node is read.  It has no forests of
open blocks then, but the handles of their nodes, from the inside out, and it cuts the texts of fields
out of the source by byte offsets.  Much has to be true for this to make sense: offsets have to be in
order and between characters, a statement has to have a token, an at-rule has to start with `@`, a
comment needs room for its marks, and what a node is put into has to be a container of the sheet.

Here all of that is checked, each time before it is relied on.  A check that fails is a `Breach`,
which is not an error of the source.

## Main Definitions

* `Guarded.Breach`, `Guarded.Halt` : why a parse stops
* `Guarded.slice`, `Guarded.sliceBetween` : the text between two byte offsets, if there is one
* `Guarded.State`, `Guarded.State.step`, `Guarded.State.finish`
* `Guarded.parse` : a source as a sheet
-/

namespace LosslessCss

/-- The sheet with a new node as the last child of a container. -/
def Sheet.appendNew (s : Sheet) (parent : Handle) (node : Node) : Sheet where
  trees := s.trees.insert (.lastIn parent) ⟨⟨s.fresh, node⟩, .nil⟩
  fresh := s.fresh + 1

namespace Guarded

/-! ### Checks -/

/-- **What the parser relies on** does not hold. -/
inductive Breach where
  /-- Two offsets are not in order, one is behind the end, or one is inside a character. -/
  | noSlice (text : String) (start stop : Nat)
  /-- A comment is shorter than its two marks. -/
  | shortComment (t : Token)
  /-- A declaration has no token. -/
  | noToken
  /-- The head of an at-rule does not start with `@`. -/
  | noAtWord
  /-- No block is open. -/
  | noBlock
  /-- A node is to be put into a node that was removed or that cannot hold children. -/
  | noContainer (parent : Handle)
  /-- The node under the handle of the root is not the root. -/
  | noRoot
  deriving DecidableEq, Repr

/-- Why a parse stops. -/
inductive Halt where
  | breach (b : Breach)
  | error (e : ParseError)
  deriving DecidableEq, Repr

/-- **The text between two byte offsets.** -/
def slice (text : String) (start stop : Nat) : Except Halt String :=
  match ({ text := text } : Source).slice? 0 start stop with
  | some part => .ok part
  | none => .error (.breach (.noSlice text start stop))

/-- The text between two places of the source; nothing if there is no place to start or to stop. -/
def sliceBetween (source : Source) (start? stop? : Option Position) : Except Halt String :=
  match start?, stop? with
  | some start, some stop => slice source.text start.offset stop.offset
  | _, _ => .ok ""

/-! ### The parts of a statement -/

/-- The parts of a comment, cut out of its text. -/
def commentParts (t : Token) : Except Halt CommentParts := do
  if t.text.utf8ByteSize < 4 then throw (.breach (.shortComment t))
  let inner ← slice t.text 2 (t.text.utf8ByteSize - 2)
  let text := Text.trim inner.toList
  if text.isEmpty then return ⟨inner, "", ""⟩
  let size := inner.utf8ByteSize
  let leftSize := size - (String.ofList (Text.trimStart inner.toList)).utf8ByteSize
  let rightSize := size - (String.ofList (Text.trimEnd inner.toList)).utf8ByteSize
  return ⟨← slice inner 0 leftSize, String.ofList text, ← slice inner (size - rightSize) size⟩

/-- The head of an at-rule, from tokens that do not end in blank space. -/
def atRuleHead (source : Source) : List Token → Except Halt AtRuleHead
  | [] => throw (.breach .noAtWord)
  | word :: rest => do
    if word.text.toList.head? ≠ some '@' then throw (.breach .noAtWord)
    let name ← slice word.text 1 word.text.utf8ByteSize
    let params := rest.dropWhile Token.isSpace
    let afterName ← sliceBetween source (rest.head?.map Token.start) (params.head?.map Token.start)
    let params ← sliceBetween source (params.head?.map Token.start) (rest.getLast?.map Token.stop)
    return ⟨name, afterName, params⟩

/-- A value and the mark `!important` behind it. -/
def splitImportant (value : String) : Except Halt (String × Option String) := do
  let upToBang := dropTrailing (· != '!') value.toList
  if upToBang.isEmpty then return (value, none)
  let bang := (String.ofList upToBang.dropLast).utf8ByteSize
  let behind ← slice value (bang + 1) value.utf8ByteSize
  if !Text.eqIgnoringCase (Text.trim behind.toList) "important".toList then return (value, none)
  let front ← slice value 0 bang
  let cut := (String.ofList (Text.trimEnd front.toList)).utf8ByteSize
  return (← slice value 0 cut, some (← slice value cut value.utf8ByteSize))

/-- The parts of a declaration, from tokens that do not end in blank space. -/
def declaration (source : Source) (tokens : List Token) : Except Halt DeclarationParts :=
  match tokens.head?, tokens.getLast? with
  | some first, some last =>
    let isOther (t : Token) : Bool := t.kind != .colon
    match tokens.dropWhile isOther with
    | [] => do
      let text ← slice source.text first.start.offset last.stop.offset
      throw (.error (.missingColon text first.start))
    | _ :: rest =>
      match (Statement.content (tokens.takeWhile isOther)).getLast? with
      | none => throw (.error (.missingProperty first.start))
      | some behind => do
        let property ← slice source.text first.start.offset behind.stop.offset
        let (between, value) ← match (rest.dropWhile Token.isTrivia).head? with
          | some start => do
            pure (← slice source.text behind.stop.offset start.start.offset,
              ← slice source.text start.start.offset last.stop.offset)
          | none => do pure (← slice source.text behind.stop.offset last.stop.offset, "")
        let (value, important) ← splitImportant value
        return ⟨property, between, value, important⟩
  | _, _ => throw (.breach .noToken)

/-! ### States -/

/-- An open block: its node, and where it starts. -/
structure OpenBlock where
  node : Handle
  start : Position
  deriving DecidableEq, Repr

/-- The state of a parse between two tokens. -/
structure State where
  sheet : Sheet
  /-- The open blocks, from the inside out. -/
  stack : List OpenBlock
  /-- The statement so far. -/
  buffer : List Token
  /-- Parentheses and brackets open in the statement. -/
  depth : Nat
  /-- Text that belongs to no node yet. -/
  spaces : String
  /-- The last statement of the current block was ended by a semicolon. -/
  semicolon : Bool
  deriving DecidableEq, Repr

namespace State

/-- Nothing is read; only the root is open. -/
def start : State where
  sheet := .empty
  stack := [⟨Sheet.root, .start⟩]
  buffer := []
  depth := 0
  spaces := ""
  semicolon := false

/-- Text that belongs to no node waits for the next one. -/
def keep (s : State) (text : String) : State := { s with spaces := s.spaces ++ text }

/-- Adds a token to the statement. -/
def push (s : State) (t : Token) : State :=
  { s with
    buffer := s.buffer ++ [t]
    depth := match t.kind with
      | .parenOpen | .bracketOpen => s.depth + 1
      | .parenClose | .bracketClose => s.depth - 1
      | _ => s.depth }

/-- **A node is put into the current block**, with the pending text as the gap in front of it. -/
def attach (s : State) (node : Node) : Except Halt State :=
  match s.stack with
  | [] => throw (.breach .noBlock)
  | current :: _ => do
    if !(s.sheet.node? current.node).any (·.content.isContainer) then
      throw (.breach (.noContainer current.node))
    let placed := { node with raws := { node.raws with before := some s.spaces } }
    return { s with
      sheet := s.sheet.appendNew current.node placed
      spaces := ""
      semicolon := s.semicolon && node.content.isComment }

/-- A comment becomes a node. -/
def comment (s : State) (t : Token) : Except Halt State := do
  let parts ← commentParts t
  s.attach
    { content := .comment parts.text
      raws := { left := some parts.left, right := some parts.right }
      span := some t.span }

/-- An opening brace: the statement is the head of a block, and the block is the current one. -/
def openBlock (source : Source) (s : State) (brace : Token) : Except Halt State := do
  let content := Statement.content s.buffer
  let start := (s.buffer.head?.getD brace).start
  let between ← sliceBetween source ((Statement.gap s.buffer).head?.map Token.start) brace.start
  let span := some ⟨source.id, start, brace.stop⟩
  let node : Node ←
    if s.buffer.head?.any (·.kind == .atWord) then do
      let head ← atRuleHead source content
      pure
        { content := .atRule head.name head.params true
          raws := { afterName := some head.afterName, between := some between }
          span := span }
    else do
      let selector ← sliceBetween source start (content.getLast?.map Token.stop)
      pure { content := .rule selector, raws := { between := some between }, span := span }
  let attached ← { s with buffer := [], depth := 0 }.attach node
  return { attached with stack := ⟨s.sheet.fresh, start⟩ :: attached.stack }

/-- **The statement is over.**  It becomes an at-rule without a body or a declaration; a lenient parse
keeps the text of any other. -/
def endStatement (source : Source) (lenient : Bool) (s : State) (semicolon? : Option Token) :
    Except Halt State :=
  match s.buffer with
  | [] => .ok s
  | first :: others => do
    let content := Statement.content (first :: others)
    let last := content.getLast?.getD first
    let behind := ((first :: others).getLast?.getD last).stop
    let trailing ← slice source.text last.stop.offset behind.offset
    let (trailing, pending) := if semicolon?.isSome then (trailing, "") else ("", trailing)
    let span := some ⟨source.id, first.start, (semicolon?.getD last).stop⟩
    let s := { s with buffer := [], depth := 0 }
    let close (attached : State) : State :=
      { attached.keep pending with semicolon := attached.semicolon || semicolon?.isSome }
    if first.kind = .atWord then
      let head ← atRuleHead source content
      let attached ← s.attach
        { content := .atRule head.name head.params false
          raws := { afterName := some head.afterName, between := some trailing }
          span := span }
      return close attached
    else
      match declaration source content with
      | .ok parts =>
        let attached ← s.attach
          { content := .declaration parts.property parts.value parts.important.isSome
            raws :=
              { between := some parts.between
                important := parts.important
                afterValue := some trailing }
            span := span }
        return close attached
      | .error (.error e) =>
        if lenient then
          let text ← slice source.text first.start.offset last.stop.offset
          return ((s.keep text).keep (trailing ++ (semicolon?.map Token.text).getD "")).keep pending
        else throw (.error e)
      | .error (.breach b) => throw (.breach b)

/-- The node of a block with the fields that are known at its end. -/
def ended (s : State) (stop? : Option Position) (n : Node) : Node :=
  { n with
    raws := { n.raws with after := some s.spaces, semicolon := some s.semicolon }
    span := n.span.map fun span => { span with stop := stop?.getD span.stop } }

/-- A block ends, at the given place if there is one. -/
def finishBlock (s : State) (h : Handle) (stop? : Option Position) : State :=
  { s with
    sheet := s.sheet.update h (s.ended stop?)
    spaces := ""
    semicolon := false }

/-- A closing brace: with only the root open it has nothing to close. -/
def closeBlock (lenient : Bool) (s : State) (brace : Token) : Except Halt State :=
  match s.stack with
  | current :: parent :: outer =>
    .ok ({ s with stack := parent :: outer }.finishBlock current.node (some brace.stop))
  | _ =>
    if lenient then .ok (s.keep brace.text)
    else .error (.error (.unexpectedCloseBrace brace.start))

/-- **One token.**  Between statements blank space and semicolons are kept as text and a comment is
a node; inside a statement a semicolon ends it only outside all parentheses and brackets. -/
def step (source : Source) (lenient : Bool) (s : State) (t : Token) : Except Halt State :=
  if s.buffer.isEmpty then
    match t.kind with
    | .space | .semicolon => .ok (s.keep t.text)
    | .comment => s.comment t
    | .braceOpen => s.openBlock source t
    | .braceClose => s.closeBlock lenient t
    | _ => .ok (s.push t)
  else
    match t.kind with
    | .semicolon => if s.depth = 0 then s.endStatement source lenient (some t) else .ok (s.push t)
    | .braceOpen => s.openBlock source t
    | .braceClose => do (← s.endStatement source lenient none).closeBlock lenient t
    | _ => .ok (s.push t)

/-- Ends all blocks but the root, from the inside out. -/
def closeAll (s : State) (stop : Position) : State :=
  s.stack.dropLast.foldl
    (fun s block => { s with stack := s.stack.tail }.finishBlock block.node (some stop)) s

/-- **The end of the source** ends the statement and, in a lenient parse, all blocks. -/
def finish (source : Source) (lenient : Bool) (s : State) : Except Halt Sheet := do
  let s ← s.endStatement source lenient none
  match s.stack with
  | [] => throw (.breach .noBlock)
  | innermost :: outer =>
    if !outer.isEmpty && !lenient then throw (.error (.unclosedBlock innermost.start))
    let s := (s.closeAll source.endPosition).finishBlock Sheet.root none
    if !(s.sheet.node? Sheet.root).any (·.content == .root) then throw (.breach .noRoot)
    return s.sheet.update Sheet.root fun n =>
      { n with span := some ⟨source.id, .start, source.endPosition⟩ }

end State

/-- **A source as a sheet**, or the first violation in it. -/
def parse (source : Source) (lenient : Bool) : Except Halt Sheet := do
  let lexed := tokenize source lenient
  let s ← lexed.tokens.foldlM (State.step source lenient) .start
  match lexed.failure with
  | some e => throw (.error (.lexical e))
  | none => s.finish source lenient

end Guarded

end LosslessCss
