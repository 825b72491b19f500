import LosslessCss.Print
import LosslessCss.Proofs.Scan
import LosslessCss.Proofs.StatementParts
import LosslessCss.Proofs.Transitions

/-!
# The text that a parse stands for

While a sheet is read, the text behind the reader is spread over the state of the parse: gaps and
heads of open blocks, finished trees, pending text and collected tokens.  `Parse.State.text` puts it
together again.  This module proves that each token adds exactly its own text, for a strict and for
a lenient parse alike.

## The invariant

Finished trees are written by `Forest.replay`, which is the faithful layout without the defaults for
gaps that nobody wrote.  What makes the step lemma go through is `Parse.State.Sound`: the text of
the current block does not depend on whether its last statement is written with a semicolon, unless
the last statement really had one (`settled`).  So a new statement can follow, which turns the last
statement into one that is always closed.

The invariant fails at one place only: behind a closing brace that ends a statement although no
block is open.  A strict parse does not go on there.  A lenient parse does, so runs are `Tidy` if
that does not happen in them.

## Main Definitions

* `Forest.replay`, `Forest.Recorded`
* `Parse.State.text`, `Parse.State.Sound`, `Parse.State.Tidy`

## Main Statements

* `Forest.print_faithful_eq_replay`
* `Parse.State.Steps.text`, `Parse.State.Runs.text`
-/

namespace LosslessCss

/-! ### Writing recorded gaps -/

/-- The text of a node from the gap in front of it up to its block, or to its end. -/
def Node.opening (semicolon : Bool) (n : Node) : String :=
  n.raws.before.getD "" ++ Layout.faithfulHead id semicolon n ++
    if n.content.opensBlock then "\x7b" else ""

/-- **The text of a forest with its recorded gaps**; a missing gap is empty. -/
def Forest.replay (closed : Bool) : Forest Node → String
  | nil => ""
  | cons n children next =>
    n.opening (closed || next.hasStatement) ++
      (if n.content.opensBlock then
        children.replay (n.raws.semicolon.getD false) ++ n.raws.after.getD "" ++ "\x7d"
      else "") ++
      next.replay closed

/-- The gaps that depend on the place of a node were recorded. -/
def Node.Recorded (n : Node) : Prop :=
  n.raws.before.isSome ∧ (n.content.opensBlock → n.raws.after.isSome)

/-- All nodes of the forest are recorded. -/
def Forest.Recorded (f : Forest Node) : Prop := ∀ n ∈ f.preorder, n.Recorded

namespace Forest

@[simp]
theorem recorded_nil : (nil : Forest Node).Recorded := by
  simp [Recorded, preorder]

theorem recorded_cons {n : Node} {children next : Forest Node} :
    (cons n children next).Recorded ↔ n.Recorded ∧ children.Recorded ∧ next.Recorded := by
  simp only [Recorded, preorder, List.forall_mem_cons, List.mem_append, or_imp, forall_and]

theorem recorded_append {f g : Forest Node} :
    (f ++ g).Recorded ↔ f.Recorded ∧ g.Recorded := by
  simp only [Recorded, preorder_append, List.mem_append, or_imp, forall_and]

/-- **The faithful layout writes recorded gaps as they are**, wherever the forest stands. -/
theorem print_faithful_eq_replay {f : Forest Node} (h : f.Recorded) (closed first : Bool)
    (depth : Nat) : f.print (.faithful id) closed first depth = f.replay closed := by
  induction f generalizing closed first depth with
  | nil => rfl
  | cons n children next ihChildren ihNext =>
    obtain ⟨⟨hbefore, hafter⟩, hchildren, hnext⟩ := recorded_cons.mp h
    obtain ⟨before, hbefore⟩ := Option.isSome_iff_exists.mp hbefore
    simp only [print, replay, Layout.faithful, if_true, Layout.wrap, Node.opening, hbefore,
      Option.getD_some]
    have hrest := ihNext hnext closed false depth
    simp only [Layout.faithful] at hrest
    rw [hrest]
    cases hopens : n.content.opensBlock with
    | false => simp
    | true =>
      obtain ⟨after, hafter⟩ := Option.isSome_iff_exists.mp (hafter hopens)
      have hinner := ihChildren hchildren (n.raws.semicolon.getD false) false (depth + 1)
      simp only [Layout.faithful] at hinner
      simp only [hinner, hafter, Option.getD_some, if_true, String.append_assoc]

/-! ### A tree at the end -/

@[simp]
theorem hasStatement_append (f g : Forest Node) :
    (f ++ g).hasStatement = (f.hasStatement || g.hasStatement) := by
  induction f with
  | nil => rfl
  | cons n children next _ ih => simp [hasStatement, ih, Bool.or_assoc]

/-- A statement behind a forest closes the last statement of the forest. -/
theorem replay_append (f g : Forest Node) (closed : Bool) :
    (f ++ g).replay closed = f.replay (closed || g.hasStatement) ++ g.replay closed := by
  induction f generalizing closed with
  | nil => simp [replay]
  | cons n children next _ ih =>
    have hflag : (closed || (next ++ g).hasStatement) =
        (closed || g.hasStatement || next.hasStatement) := by
      rw [hasStatement_append]
      cases closed <;> simp [Bool.or_comm]
    simp only [cons_append, replay, ih, hflag, String.append_assoc]

end Forest

/-! ### The heads of statements -/

namespace Statement

/-- The head of a block is the run that it was read from. -/
theorem faithfulHead_block (run : List Token)
    (hspells : ∀ t ∈ run, t.kind.Spells t.text.toList) (semicolon : Bool) :
    Layout.faithfulHead id semicolon (block run) = Token.concat run := by
  rw [← concat_content_append_gap run]
  unfold block
  split
  · next hat =>
    obtain ⟨word, hword, hkind⟩ : ∃ word, (content run).head? = some word ∧
        word.kind == .atWord := by
      cases hhead : (content run).head? with
      | none => simp [hhead] at hat
      | some word => exact ⟨word, rfl, by simpa [hhead] using hat⟩
    obtain ⟨rest, hrest⟩ := List.head?_eq_some_iff.mp hword
    have hmem : word ∈ run := (dropTrailing_isPrefix _ run).subset (by
      rw [← content, hrest]
      exact List.mem_cons_self)
    obtain ⟨name, hname⟩ : ∃ name, word.text.toList = '@' :: name := by
      simpa [eq_of_beq hkind, Token.Kind.Spells] using hspells word hmem
    have htext := AtRuleHead.ofTokens_text rest hname
    rw [← hrest] at htext
    simp [Layout.faithfulHead, ← htext]
  · simp [Layout.faithfulHead]

/-- The head of an at-rule without a body is the content of the run that it was read from. -/
theorem faithfulHead_atRule {first : Token} (others : List Token) (hkind : first.kind = .atWord)
    (hspells : first.kind.Spells first.text.toList) (gap : String) (semicolon : Bool) :
    Layout.faithfulHead id semicolon (atRule (first :: others) (some gap)) =
      Token.concat (content (first :: others)) ++ gap ++ Layout.semicolonIf semicolon := by
  obtain ⟨name, hname⟩ : ∃ name, first.text.toList = '@' :: name := by
    simpa [hkind, Token.Kind.Spells] using hspells
  have hcontent : content (first :: others) = first :: content others :=
    dropTrailing_cons_of_neg others (by simp [Token.isSpace, hkind])
  have htext := AtRuleHead.ofTokens_text (content others) hname
  rw [← hcontent] at htext
  simp [Layout.faithfulHead, atRule, ← htext]

/-- A declaration is the run that its parts were read from. -/
theorem faithfulHead_declaration {ts : List Token} {parts : DeclarationParts}
    (hparts : DeclarationParts.ofTokens ts = .ok parts) (gap : String) (semicolon : Bool) :
    Layout.faithfulHead id semicolon (declaration parts (some gap)) =
      Token.concat ts ++ if semicolon then gap ++ ";" else "" := by
  rw [← DeclarationParts.ofTokens_text hparts]
  simp only [Layout.faithfulHead, declaration, Option.getD_some, id_eq]
  cases parts.important <;> simp

end Statement

/-! ### The text of a state -/

namespace Parse

/-- The text of a block that is still open, where `closed` tells whether its last statement has a
semicolon. -/
def Block.text (closed : Bool) (b : Block) : String :=
  b.node.opening true ++ (Forest.ofLatestFirst b.children).replay closed

/-- The text of the blocks around the current one, given from the inside out. -/
def outerText : List Block → String
  | [] => ""
  | b :: outer => outerText outer ++ b.text true

/-- Blocks from the inside out: all but the last are written with braces, and the last is the
root. -/
def Nested : List Block → Prop
  | [] => False
  | [root] => root.node = { content := .root }
  | b :: outer => b.node.content.opensBlock = true ∧ b.node.raws.before.isSome ∧ Nested outer

namespace State

/-- **The text that a state stands for.** -/
def text (s : State) : String :=
  outerText s.outer ++ s.block.text s.semicolon ++ s.pending ++ Token.concat s.buffer.reverse

/-- What is known in the middle of a token. -/
structure Shaped (s : State) : Prop where
  /-- There are blocks around the current one as far as the root. -/
  nested : Nested (s.block :: s.outer)
  /-- Finished trees are recorded. -/
  recorded : ∀ b ∈ s.block :: s.outer, (Forest.ofLatestFirst b.children).Recorded
  /-- The texts of collected tokens fit their kinds. -/
  spells : ∀ t ∈ s.buffer, t.kind.Spells t.text.toList

/-- **What is known between two tokens** of a parse. -/
structure Sound (s : State) : Prop extends Shaped s where
  /-- A semicolon that the last statement does not have would not be written. -/
  settled : s.block.text s.semicolon = s.block.text true

theorem start_sound : start.Sound where
  nested := rfl
  recorded := by
    intro b hb
    obtain rfl : b = start.block := by simpa [start] using hb
    exact Forest.recorded_nil
  spells := by simp [start]
  settled := rfl

@[simp]
theorem start_text : start.text = "" := rfl

/-! ### Nodes that are added -/

/-- The text of a block with one more tree. -/
theorem block_text_cons (b : Block) (t : Tree Node) (closed : Bool) :
    ({ b with children := t :: b.children } : Block).text closed =
      b.text (closed || !t.value.content.isComment) ++
        (Forest.cons t.value t.children .nil).replay closed := by
  simp [Block.text, Forest.replay_append, Forest.hasStatement, Node.opening, String.append_assoc]

/-- Text that is kept is added. -/
theorem keep_text {s : State} (hbuffer : s.buffer = []) (x : String) :
    (s.keep x).text = s.text ++ x := by
  simp [keep, text, hbuffer, String.append_assoc]

/-- A token that is collected is added. -/
theorem push_text (s : State) (t : Token) : (s.push t).text = s.text ++ t.text := by
  simp [push, text, String.append_assoc]

/-- Whether blocks are nested does not depend on their children. -/
theorem nested_children (b : Block) (children : List (Tree Node)) (outer : List Block) :
    Nested ({ b with children := children } :: outer) ↔ Nested (b :: outer) := by
  cases outer <;> simp [Nested]

/-- The text of a block with one more node that has no block itself. -/
theorem attach_block_text (s : State) {n : Node} (hblock : n.content.opensBlock = false)
    (closed : Bool) :
    (s.attach n).block.text closed = s.block.text (closed || !n.content.isComment) ++
      (s.pending ++ Layout.faithfulHead id closed n) := by
  have htext := block_text_cons s.block ⟨s.placed n, .nil⟩ closed
  have hopening : (s.placed n).opening closed =
      s.pending ++ Layout.faithfulHead id closed n := by
    simp only [Node.opening, placed, Option.getD_some, hblock, if_false, Bool.false_eq_true,
      String.append_empty]
    rfl
  simp only [Forest.replay, Forest.hasStatement, Bool.or_false, hopening] at htext
  simp only [placed, hblock, if_false, Bool.false_eq_true, String.append_empty] at htext
  exact htext

theorem attach_shaped {s : State} (hs : s.Shaped) {n : Node}
    (hblock : n.content.opensBlock = false) : (s.attach n).Shaped where
  nested := (nested_children s.block _ s.outer).mpr hs.nested
  recorded := by
    have hnew : (Forest.cons (s.placed n) .nil .nil).Recorded := by
      rw [Forest.recorded_cons]
      exact ⟨⟨rfl, fun h => by simp [placed, hblock] at h⟩, Forest.recorded_nil,
        Forest.recorded_nil⟩
    intro b hb
    rcases List.mem_cons.mp hb with rfl | hb
    · simp only [attach, Forest.ofLatestFirst_cons, Forest.recorded_append]
      exact ⟨hs.recorded _ List.mem_cons_self, hnew⟩
    · exact hs.recorded b (List.mem_cons_of_mem _ hb)
  spells := hs.spells

/-- **A comment is added** as it was written. -/
theorem comment_text {s : State} (hbuffer : s.buffer = []) {t : Token} (hkind : t.kind = .comment)
    (hspells : t.kind.Spells t.text.toList) : (s.comment t).text = s.text ++ t.text := by
  obtain ⟨inner, hinner⟩ : ∃ inner, t.text.toList = '/' :: '*' :: (inner ++ ['*', '/']) := by
    simpa [hkind, Token.Kind.Spells] using hspells
  have hparts := CommentParts.ofText_text hinner
  unfold comment
  dsimp only
  have hhead (span : Option Span) : Layout.faithfulHead id s.semicolon
      { content := .comment (CommentParts.ofText t.text).text,
        raws := { left := some (CommentParts.ofText t.text).left,
                  right := some (CommentParts.ofText t.text).right }
        span := span } = t.text := hparts
  rw [text, attach_block_text s rfl]
  simp only [attach, Content.isComment, Bool.and_true, Bool.not_true, Bool.or_false, hhead,
    hbuffer, text, List.reverse_nil, Token.concat_nil, String.append_empty, String.append_assoc]

theorem comment_sound {s : State} (hs : s.Sound) (t : Token) : (s.comment t).Sound where
  toShaped := attach_shaped hs.toShaped rfl
  settled := by
    have hsemicolon : (s.comment t).semicolon = s.semicolon := by
      simp [comment, attach, Content.isComment]
    rw [hsemicolon]
    unfold comment
    dsimp only
    rw [attach_block_text s rfl, attach_block_text s rfl]
    simp only [Content.isComment, Bool.not_true, Bool.or_false, hs.settled]
    rfl

/-! ### Blocks -/

/-- The text of the head of a block does not depend on semicolons. -/
theorem opening_of_opensBlock {n : Node} (h : n.content.opensBlock = true) (a b : Bool) :
    n.opening a = n.opening b := by
  unfold Node.opening Layout.faithfulHead
  cases hcontent : n.content <;> simp_all [Content.opensBlock]

/-- **The head of a block is added** with its brace. -/
theorem openBlock_text {s : State} (hs : s.Sound) {t : Token} (hkind : t.kind = .braceOpen)
    (hspells : t.kind.Spells t.text.toList) : (s.openBlock t).text = s.text ++ t.text := by
  have hbrace : t.text = "\x7b" := Token.text_eq_of_spells hspells (by rw [hkind]; rfl)
  obtain ⟨start, span, hopen⟩ := s.openBlock_eq t
  have hhead := Statement.faithfulHead_block s.buffer.reverse
    (fun t ht => hs.spells t (List.mem_reverse.mp ht)) true
  have hopening : (s.placed { Statement.block s.buffer.reverse with span := span }).opening true =
      s.pending ++ Token.concat s.buffer.reverse ++ "\x7b" := by
    rw [← hhead, Node.opening]
    simp only [placed, Option.getD_some, Statement.block_opensBlock, if_true]
    rfl
  rw [hopen]
  simp only [text, outerText, Block.text, hopening, Forest.ofLatestFirst_nil, Forest.replay,
    List.reverse_nil, Token.concat_nil, String.append_empty, hbrace]
  rw [← Block.text, ← Block.text, ← hs.settled]
  simp only [String.append_assoc]

theorem openBlock_sound {s : State} (hs : s.Sound) (t : Token) : (s.openBlock t).Sound := by
  obtain ⟨start, span, hopen⟩ := s.openBlock_eq t
  rw [hopen]
  exact
    { nested := ⟨Statement.block_opensBlock _, rfl, hs.nested⟩
      recorded := by
        intro b hb
        rcases List.mem_cons.mp hb with rfl | hb
        · exact Forest.recorded_nil
        · exact hs.recorded b hb
      spells := by simp
      settled := rfl }

/-- The tree of the current block, once it is closed, replays its text. -/
theorem replay_closedNode {s : State} (hopens : s.block.node.content.opensBlock = true)
    (stop : Position) (closed : Bool) :
    (Forest.cons (s.closedNode stop) (.ofLatestFirst s.block.children) .nil).replay closed =
      s.block.text s.semicolon ++ s.pending ++ "\x7d" := by
  have hopening : (s.closedNode stop).opening closed = s.block.node.opening true := by
    rw [opening_of_opensBlock (n := s.closedNode stop) hopens closed true]
    rfl
  simp only [Forest.replay, Forest.hasStatement, Bool.or_false, hopening, closedNode_content,
    closedNode_raws, hopens, if_true, Option.getD_some, String.append_empty, Block.text,
    String.append_assoc]

/-- **A closing brace is added** behind the text of the block, whatever the semicolon of the last
statement. -/
theorem close_text {s : State} (hs : s.Shaped) (hbuffer : s.buffer = []) (houter : s.outer ≠ [])
    (stop : Position) : (s.close stop).text = s.text ++ "\x7d" := by
  obtain ⟨parent, outer, hcons⟩ := List.exists_cons_of_ne_nil houter
  have hnested := hs.nested
  rw [hcons] at hnested
  rw [close_eq hcons]
  simp only [text, hcons, block_text_cons, replay_closedNode hnested.1, closedNode_content,
    Content.isComment_of_opensBlock hnested.1, hbuffer, List.reverse_nil, Token.concat_nil,
    String.append_empty, outerText, String.append_assoc, Bool.not_false, Bool.or_true]

theorem close_sound {s : State} (hs : s.Shaped) (houter : s.outer ≠ []) (stop : Position) :
    (s.close stop).Sound := by
  obtain ⟨parent, outer, hcons⟩ := List.exists_cons_of_ne_nil houter
  have hnested := hs.nested
  have hrecorded := hs.recorded
  rw [hcons] at hnested hrecorded
  rw [close_eq hcons]
  refine { nested := ?_, recorded := ?_, spells := hs.spells, settled := ?_ }
  · exact (nested_children parent _ outer).mpr hnested.2.2
  · intro b hb
    rcases List.mem_cons.mp hb with rfl | hb
    · simp only [Forest.ofLatestFirst_cons, Forest.recorded_append, Forest.recorded_cons]
      exact ⟨hrecorded parent (by simp), ⟨hnested.2.1, fun _ => rfl⟩,
        hrecorded s.block (by simp), Forest.recorded_nil⟩
    · exact hrecorded b (by simp [hb])
  · simp only [block_text_cons, replay_closedNode hnested.1, closedNode_content,
      Content.isComment_of_opensBlock hnested.1, Bool.not_false, Bool.or_true]

/-! ### Statements -/

/-- **A statement is added** as it was written, with the blank space behind it and its semicolon. -/
theorem completed_text {s : State} (hs : s.Sound) {first : Token} {run : List Token}
    (hrun : s.buffer.reverse = run) (semicolon? : Option Token) {node : Option String → Node}
    (hblock : ∀ gap, (node gap).content.opensBlock = false)
    (hcomment : ∀ gap, (node gap).content.isComment = false)
    (hclosed : ∀ gap, Layout.faithfulHead id true (node (some gap)) =
      Token.concat (Statement.content run) ++ gap ++ ";")
    (hopen : Layout.faithfulHead id false (node (some "")) =
      Token.concat (Statement.content run)) :
    (s.completed first run semicolon? node).text =
      s.text ++ if semicolon?.isSome then ";" else "" := by
  have hrunText := Statement.concat_content_append_gap run
  have hblockText := fun gap span closed =>
    attach_block_text s (n := { node gap with span := span }) (hblock gap) closed
  simp only [completed, text, hrun, ← hrunText, List.reverse_nil, Token.concat_nil,
    String.append_empty, hblockText, hcomment, Bool.not_false, Bool.or_true, ← hs.settled]
  cases semicolon? with
  | none =>
    have hhead (span : Option Span) :
        Layout.faithfulHead id false { node (some "") with span := span } =
          Token.concat (Statement.content run) := hopen
    simp [hhead, attach, String.append_assoc]
  | some semicolon =>
    have hhead (gap : String) (span : Option Span) :
        Layout.faithfulHead id true { node (some gap) with span := span } =
          Token.concat (Statement.content run) ++ gap ++ ";" := hclosed gap
    simp [hhead, attach, String.append_assoc]

theorem completed_shaped {s : State} (hs : s.Shaped) (first : Token) (run : List Token)
    (semicolon? : Option Token) {node : Option String → Node}
    (hblock : ∀ gap, (node gap).content.opensBlock = false) :
    (s.completed first run semicolon? node).Shaped := by
  have hattached := fun gap span =>
    attach_shaped hs (n := { node gap with span := span }) (hblock gap)
  unfold completed
  exact
    { nested := (hattached _ _).nested
      recorded := (hattached _ _).recorded
      spells := by simp }

/-- **The end of a statement adds** its semicolon, if there is one. -/
theorem Ends.text {lenient : Bool} {s s' : State} {semicolon? : Option Token} (hs : s.Sound)
    (h : s.Ends lenient semicolon? s') (hsemicolon : ∀ t ∈ semicolon?, t.text = ";") :
    s'.text = s.text ++ if semicolon?.isSome then ";" else "" := by
  cases h with
  | @atRule first others hrun hkind =>
    have hspells : first.kind.Spells first.text.toList :=
      hs.spells first (List.mem_reverse.mp (by rw [hrun]; exact List.mem_cons_self))
    have hhead := Statement.faithfulHead_atRule others hkind hspells
    refine completed_text hs hrun semicolon? (fun _ => rfl) (fun _ => rfl) (fun gap => ?_) ?_
    · simpa [Layout.semicolonIf] using hhead gap true
    · simpa [Layout.semicolonIf] using hhead "" false
  | declaration hrun hkind hparts =>
    have hhead := Statement.faithfulHead_declaration hparts
    refine completed_text hs hrun semicolon? (fun _ => rfl) (fun _ => rfl) (fun gap => ?_) ?_
    · simpa [String.append_assoc] using hhead gap true
    · simpa using hhead "" false
  | @kept first others _ hlenient hrun hkind hfault =>
    have hkept : ((semicolon?.map Token.text).getD "") =
        if semicolon?.isSome then ";" else "" := by
      cases semicolon? with
      | none => rfl
      | some t => simp [hsemicolon t rfl]
    simp [keep, State.text, hrun, hkept, String.append_assoc]

theorem Ends.shaped {lenient : Bool} {s s' : State} {semicolon? : Option Token} (hs : s.Sound)
    (h : s.Ends lenient semicolon? s') : s'.Shaped := by
  cases h with
  | atRule | declaration => exact completed_shaped hs.toShaped _ _ _ fun _ => rfl
  | kept => exact { nested := hs.nested, recorded := hs.recorded, spells := by simp [keep] }

/-- Behind a semicolon the next statement can follow. -/
theorem Ends.sound {lenient : Bool} {s s' : State} {t : Token} (hs : s.Sound)
    (h : s.Ends lenient (some t) s') : s'.Sound where
  toShaped := h.shaped hs
  settled := by
    cases h with
    | atRule | declaration => rfl
    | kept => exact hs.settled

/-! ### Tokens -/

/-- No closing brace ends a statement although no block is open. -/
def Tidy (s : State) (t : Token) : Prop :=
  t.kind = .braceClose → s.outer = [] → s.buffer = []

/-- **A token adds its text.** -/
theorem Steps.text {lenient : Bool} {s s' : State} {t : Token} (hs : s.Sound)
    (hspells : t.kind.Spells t.text.toList) (htidy : lenient = true → s.Tidy t)
    (h : s.Steps lenient t s') : s'.text = s.text ++ t.text ∧ s'.Sound := by
  have hbrace (hkind : t.kind = .braceClose) : t.text = "\x7d" :=
    Token.text_eq_of_spells hspells (by rw [hkind]; rfl)
  have hpush : (s.push t).Sound :=
    { nested := hs.nested, recorded := hs.recorded, settled := hs.settled
      spells := by
        intro u hu
        rcases List.mem_cons.mp hu with rfl | hu
        · exact hspells
        · exact hs.spells u hu }
  have hkeep : (s.keep t.text).Sound :=
    { nested := hs.nested, recorded := hs.recorded, settled := hs.settled, spells := hs.spells }
  cases h with
  | gap hbuffer hkind => exact ⟨keep_text hbuffer _, hkeep⟩
  | comment hbuffer hkind => exact ⟨comment_text hbuffer hkind hspells, comment_sound hs t⟩
  | openBlock hkind => exact ⟨openBlock_text hs hkind hspells, openBlock_sound hs t⟩
  | close hbuffer hkind houter =>
    rw [hbrace hkind]
    exact ⟨close_text hs.toShaped hbuffer houter _, close_sound hs.toShaped houter _⟩
  | stray hlenient hbuffer hkind houter => exact ⟨keep_text hbuffer _, hkeep⟩
  | first hbuffer hkind => exact ⟨push_text s t, hpush⟩
  | more hbuffer hkind => exact ⟨push_text s t, hpush⟩
  | semicolon hbuffer hkind hdepth hends =>
    have htext : t.text = ";" := Token.text_eq_of_spells hspells (by rw [hkind]; rfl)
    refine ⟨?_, hends.sound hs⟩
    rw [hends.text hs (by simpa using htext), htext]
    rfl
  | @endClose s₁ hbuffer hkind houter hends =>
    have hshaped := hends.shaped hs
    have houter₁ : s₁.outer ≠ [] := by rwa [hends.frame.2.2.1]
    refine ⟨?_, close_sound hshaped houter₁ _⟩
    rw [close_text hshaped hends.frame.1 houter₁, hends.text hs (by simp), hbrace hkind]
    simp
  | endStray hlenient hbuffer hkind houter hends =>
    exact absurd (htidy hlenient hkind houter) hbuffer

/-- **A run adds the texts of its tokens.** -/
theorem Runs.text {lenient : Bool} {s s' : State} {ts : List Token} (hs : s.Sound)
    (hspells : ∀ t ∈ ts, t.kind.Spells t.text.toList)
    (htidy : lenient = true →
      ∀ before t after m, ts = before ++ t :: after → Runs lenient s before m → m.Tidy t)
    (h : Runs lenient s ts s') : s'.text = s.text ++ Token.concat ts ∧ s'.Sound := by
  induction ts generalizing s with
  | nil =>
    obtain rfl := runs_nil.mp h
    exact ⟨by simp, hs⟩
  | cons t ts ih =>
    obtain ⟨s₁, hstep, hrest⟩ := runs_cons.mp h
    obtain ⟨htext₁, hs₁⟩ := Steps.text hs (hspells t List.mem_cons_self)
      (fun hlenient => htidy hlenient [] t ts s rfl (runs_nil.mpr rfl)) hstep
    obtain ⟨htext, hs'⟩ := ih hs₁ (fun u hu => hspells u (List.mem_cons_of_mem t hu))
      (fun hlenient before u after m hcut hrun =>
        htidy hlenient (t :: before) u after m (by rw [hcut]; rfl)
          (runs_cons.mpr ⟨s₁, hstep, hrun⟩)) hrest
    refine ⟨?_, hs'⟩
    rw [htext, htext₁, Token.concat_cons, String.append_assoc]

end State

end Parse

end LosslessCss
