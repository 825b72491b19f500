import LosslessCss.Proofs.OpenBlocks
import LosslessCss.Proofs.ParsedNodes
import LosslessCss.Proofs.Slices

/-!
# Nothing that a parser relies on fails

The guarded parser reads what the parser reads, and none of its checks ever fails
(`Guarded.parse_eq`).  Whatever the parser has read tells the state of the guarded parser
(`Parse.State.guarded`): the sheet is the forest of the open blocks, with handles in document order,
and the stack has the handles of these blocks.  So all that has to be known for the checks is known
of the states of the parser (`Parse.State.HasRead`): the tokens that were collected are the last ones
that were read, the first of them starts a statement, and the open blocks are the root and blocks
inside it.  A token keeps this up, whatever it does (`Parse.State.Steps.hasRead`), and under this
invariant both parsers do the same with a token (`Parse.State.step_guarded`) and at the end of the
source (`Parse.State.finish_guarded`).

## Main Definitions

* `Parse.State.guarded` : the state of the guarded parser
* `Parse.State.HasRead` : what is known between two tokens
* `Guarded.State.Reached` : the states of a parse, those at the end of a statement included
* `Guarded.State.Sound` : what the parser relies on in a state

## Main Statements

* `Parse.State.Steps.hasRead`
* `Parse.State.step_guarded`, `Parse.State.run_guarded`, `Parse.State.finish_guarded`
* `Guarded.parse_eq`, `Guarded.parse_ne_breach_and_sound`
-/

namespace LosslessCss

/-- An outcome of the parser as one of the guarded parser. -/
def Guarded.lift {α β : Type} (f : α → β) (result : Except ParseError α) : Except Guarded.Halt β :=
  (result.map f).mapError .error

/-- Closing all blocks starts with the innermost one. -/
theorem Guarded.State.closeAll_eq {c : Guarded.State} {current parent : Guarded.OpenBlock}
    {outer : List Guarded.OpenBlock} (hstack : c.stack = current :: parent :: outer)
    (stop : Position) : c.closeAll stop =
      ({ c with stack := c.stack.tail }.finishBlock current.node (some stop)).closeAll stop := by
  obtain ⟨sheet, stack⟩ := c
  subst hstack
  rfl

namespace Parse.State

variable {source : Source} {lenient : Bool} {s s' : State} {t : Token} {read before : List Token}

/-! ### States -/

/-- The open blocks, from the outside in. -/
def blocks (s : State) : List Block := s.outer.reverse ++ [s.block]

/-- **The state of the guarded parser** when it has read the same. -/
def guarded (s : State) : Guarded.State where
  sheet := ⟨(openForest s.blocks).label Sheet.root, (openForest s.blocks).size⟩
  stack := (openBlocks Sheet.root s.blocks).reverse
  buffer := s.buffer.reverse
  depth := s.depth
  spaces := s.pending
  semicolon := s.semicolon

/-- The handle of the current block. -/
def current (s : State) : Handle := handleIn Sheet.root s.outer.reverse

theorem guarded_start : start.guarded = Guarded.State.start := rfl

theorem guarded_stack (s : State) : s.guarded.stack =
    ⟨s.current, s.block.start⟩ :: (openBlocks Sheet.root s.outer.reverse).reverse := by
  rw [guarded, blocks, openBlocks_append, List.reverse_append]
  rfl

theorem guarded_find? (s : State) : s.guarded.sheet.find? s.current =
    some ⟨⟨s.current, s.block.node⟩,
      (Forest.ofLatestFirst s.block.children).label (s.current + 1)⟩ :=
  find?_openForest Sheet.root s.outer.reverse s.block

theorem guarded_node? (s : State) : s.guarded.sheet.node? s.current = some s.block.node :=
  Sheet.node?_of_find? s.guarded_find?

/-- **What is known between two tokens**, when the given tokens were read. -/
structure HasRead (source : Source) (read : List Token) (s : State) : Prop where
  /-- The tokens stand in the source. -/
  laid : Token.Laid source read
  /-- The tokens that were collected are the last ones. -/
  cut : ∃ before, read = before ++ s.buffer.reverse
  /-- They start a statement. -/
  starts : ∀ t ∈ s.buffer.reverse.head?, t.kind.startsStatement = true
  /-- The open blocks are the root and blocks inside it. -/
  made : s.Made

theorem hasRead_start (source : Source) : start.HasRead source [] where
  laid := ⟨⟨source.text, by simp⟩, trivial, by simp⟩
  cut := ⟨[], rfl⟩
  starts := by simp [start]
  made := start_made

/-- Nothing is collected behind a token that ended what was collected. -/
theorem HasRead.of_idle (hlaid : Token.Laid source read) (hmade : s.Made) (hbuffer : s.buffer = []) :
    s.HasRead source read :=
  ⟨hlaid, ⟨read, by simp [hbuffer]⟩, by simp [hbuffer], hmade⟩

/-- One more token is collected. -/
theorem HasRead.push (hs : s.HasRead source read) (hlaid : Token.Laid source (read ++ [t]))
    (hstarts : s.buffer = [] → t.kind.startsStatement = true) :
    (s.push t).HasRead source (read ++ [t]) := by
  obtain ⟨before, hcut⟩ := hs.cut
  have hbuffer : (s.push t).buffer.reverse = s.buffer.reverse ++ [t] := List.reverse_cons
  refine ⟨hlaid, ⟨before, ?_⟩, fun u hu => ?_, hs.made.of_blocks rfl rfl⟩
  · rw [hbuffer, ← List.append_assoc, ← hcut]
  · rw [hbuffer] at hu
    cases hrun : s.buffer.reverse with
    | nil =>
      rw [hrun] at hu
      obtain rfl : t = u := by simpa using hu
      exact hstarts (List.reverse_eq_nil_iff.mp hrun)
    | cons first others => exact hs.starts u (by rw [hrun] at hu ⊢; exact hu)

/-- A block that is closed leaves nothing collected. -/
theorem close_buffer (s : State) (stop : Position) : (s.close stop).buffer = s.buffer := by
  unfold close
  split <;> rfl

/-- **A token keeps up what is known.** -/
theorem Steps.hasRead (h : s.Steps lenient t s') (hs : s.HasRead source read)
    (hlaid : Token.Laid source (read ++ [t])) : s'.HasRead source (read ++ [t]) := by
  have hmade := h.made hs.made
  cases h with
  | gap hbuffer | comment hbuffer | stray _ hbuffer => exact .of_idle hlaid hmade hbuffer
  | openBlock => exact .of_idle hlaid hmade rfl
  | close hbuffer => exact .of_idle hlaid hmade ((s.close_buffer _).trans hbuffer)
  | first hbuffer hkind => exact hs.push hlaid fun _ => hkind
  | more hbuffer => exact hs.push hlaid fun hnil => absurd hnil hbuffer
  | semicolon _ _ _ hends => exact .of_idle hlaid hmade hends.frame.1
  | endClose _ _ _ hends =>
    exact .of_idle hlaid hmade ((close_buffer _ _).trans hends.frame.1)
  | endStray _ _ _ _ hends => exact .of_idle hlaid hmade hends.frame.1

/-! ### The current block -/

/-- **The current block is a container.** -/
theorem Made.isContainer (hs : s.Made) : s.block.node.content.isContainer = true := by
  have hnested := hs.nested
  cases houter : s.outer with
  | nil =>
    rw [houter] at hnested
    rw [show s.block.node = { content := .root } from hnested]
    rfl
  | cons parent outer =>
    rw [houter] at hnested
    have hopens := hnested.1
    cases hcontent : s.block.node.content <;>
      simp_all [Content.isContainer, Content.opensBlock]

/-- One more node in the sheet of the guarded parser. -/
theorem guarded_attach (s : State) (n : Node) :
    (s.attach n).guarded =
      { s.guarded with
        sheet := s.guarded.sheet.appendNew s.current (s.placed n)
        spaces := ""
        semicolon := s.semicolon && n.content.isComment } := by
  have hinsert := insert_openForest Sheet.root s.outer.reverse s.block (s.placed n)
  have hsize : (openForest (s.attach n).blocks).size = (openForest s.blocks).size + 1 := by
    simp [blocks, size_openForest_append, openForest, attach, Forest.size, Nat.add_assoc]
  have hsheet : (s.attach n).guarded.sheet = s.guarded.sheet.appendNew s.current (s.placed n) := by
    rw [Sheet.root, Nat.zero_add] at hinsert
    rw [Sheet.appendNew, guarded, guarded, hsize]
    exact (congrArg (Sheet.mk · _) hinsert).symm
  have hstack : (s.attach n).guarded.stack = s.guarded.stack := by
    rw [guarded_stack, guarded_stack]
    rfl
  rw [← hsheet]
  dsimp only
  rw [← hstack]
  rfl

/-- **A node is put into the current block**, and its handle is the next one. -/
theorem attach_guarded (hs : s.Made) (n : Node) : s.guarded.attach n = .ok (s.attach n).guarded := by
  have hcontainer : (s.guarded.sheet.node? s.current).any (·.content.isContainer) = true := by
    rw [guarded_node?, Option.any_some, hs.isContainer]
  rw [Guarded.State.attach, guarded_stack, guarded_attach]
  dsimp only
  rw [hcontainer, ← guarded_stack]
  rfl

/-- The token of a comment has room for its marks. -/
theorem comment_guarded (hs : s.HasRead source read) (hlaid : Token.Laid source (read ++ [t]))
    (hkind : t.kind = .comment) : s.guarded.comment t = .ok (s.comment t).guarded := by
  have hspells : Token.Kind.comment.Spells t.text.toList := hkind ▸ hlaid.spells t (by simp)
  rw [Guarded.State.comment, Guarded.commentParts_eq hspells]
  exact attach_guarded hs.made _

/-! ### Statements -/

theorem HasRead.not_isSpace (hs : s.HasRead source read) :
    ∀ t ∈ s.buffer.reverse.head?, t.isSpace = false := by
  intro t ht
  have hstarts := hs.starts t ht
  cases hkind : t.kind <;> simp_all [Token.isSpace, Token.Kind.startsStatement]

/-- What is collected starts with its content. -/
theorem HasRead.head?_content (hs : s.HasRead source read) :
    (Statement.content s.buffer.reverse).head? = s.buffer.reverse.head? := by
  have hspace := hs.not_isSpace
  cases hrun : s.buffer.reverse with
  | nil => rfl
  | cons first others =>
    rw [hrun] at hspace
    rw [Statement.content, dropTrailing_cons_of_neg others (hspace first rfl)]
    rfl

/-- The content does not end in blank space. -/
theorem getLast?_content (run : List Token) :
    ∀ t ∈ (Statement.content run).getLast?, t.isSpace = false :=
  dropTrailing_eq_self_iff.mp (dropTrailing_dropTrailing run)

/-- A run of tokens is cut in front of the blank space at its end. -/
theorem append_content_append_gap (before run : List Token) :
    before ++ Statement.content run ++ Statement.gap run = before ++ run := by
  rw [List.append_assoc, Statement.content, Statement.gap, dropTrailing_append_takeTrailing]

/-- The blank space at the end of a run is cut out of the source. -/
theorem slice_gap {run : List Token} {last : Token} (h : Token.Laid source (before ++ run))
    (hlast : (Statement.content run).getLast? = some last) :
    Guarded.slice source.text last.stop.offset (run.getLast?.getD last).stop.offset =
      .ok (Token.concat (Statement.gap run)) := by
  have hend : (run.getLast?.getD last).stop.offset =
      (Token.concat (before ++ run)).utf8ByteSize := by
    refine h.stop_offset ?_
    cases hrun : run.getLast? with
    | none =>
      rw [List.getLast?_eq_none_iff.mp hrun] at hlast
      cases hlast
    | some t => rfl
  rw [← append_content_append_gap] at h hend
  rw [hend, h.of_append.stop_offset hlast]
  exact h.slice_between

/-- What is read between two tokens, without the statement. -/
def idle (s : State) : State := { s with buffer := [], depth := 0 }

/-- Where a block that is opened starts. -/
def blockStart (s : State) (brace : Token) : Position := (s.buffer.reverse.head?.getD brace).start

/-- The node of a block that is opened. -/
def blockNode (s : State) (brace : Token) : Node :=
  { Statement.block s.buffer.reverse with
    span := some ⟨brace.span.source, s.blockStart brace, brace.stop⟩ }

/-- **A block that is opened** is the last child of the block around it, and it is so in the forest of
the open blocks as well. -/
theorem guarded_openBlock (s : State) (brace : Token) :
    (s.openBlock brace).guarded =
      { (s.idle.attach (s.blockNode brace)).guarded with
        stack := ⟨s.guarded.sheet.fresh, s.blockStart brace⟩ ::
          (s.idle.attach (s.blockNode brace)).guarded.stack } := by
  have hcomment : (s.blockNode brace).content.isComment = false :=
    Content.isComment_of_opensBlock (Statement.block_opensBlock s.buffer.reverse)
  have hblocks : (s.openBlock brace).blocks =
      s.outer.reverse ++ [s.block, ⟨s.placed (s.blockNode brace), s.blockStart brace, []⟩] := by
    rw [openBlock_eq_block, blocks, List.reverse_cons, List.append_assoc]
    rfl
  have hforest : openForest (s.openBlock brace).blocks =
      openForest (s.idle.attach (s.blockNode brace)).blocks := by
    rw [hblocks, openForest_close]
    rfl
  have hstack : openBlocks Sheet.root (s.openBlock brace).blocks =
      openBlocks Sheet.root s.blocks ++ [⟨s.guarded.sheet.fresh, s.blockStart brace⟩] := by
    have hhandle : handleIn Sheet.root s.blocks = s.guarded.sheet.fresh := by
      rw [handleIn_eq, Sheet.root, Nat.zero_add]
      rfl
    rw [hblocks, ← List.singleton_append, ← List.append_assoc, openBlocks_append]
    exact congrArg (fun h => openBlocks Sheet.root s.blocks ++ [⟨h, s.blockStart brace⟩]) hhandle
  have hattached : (s.idle.attach (s.blockNode brace)).guarded.stack = s.guarded.stack := by
    rw [guarded_attach]
    rfl
  rw [hattached, guarded, hforest, hstack, List.reverse_append]
  have hsemicolon : (s.idle.attach (s.blockNode brace)).semicolon = false := by
    rw [attach, hcomment, Bool.and_false]
  refine congrArg (Guarded.State.mk _ _ _ _ _) ?_
  exact hsemicolon.symm

/-- **The head of a block is cut out of the source**: its content and the gap in front of the brace. -/
theorem HasRead.slice_head (hs : s.HasRead source read)
    (hlaid : Token.Laid source (read ++ [t])) :
    (∃ before, Token.Laid source (before ++ Statement.content s.buffer.reverse)) ∧
      Guarded.sliceBetween source (s.blockStart t)
          ((Statement.content s.buffer.reverse).getLast?.map Token.stop) =
        .ok (Token.concat (Statement.content s.buffer.reverse)) ∧
      Guarded.sliceBetween source ((Statement.gap s.buffer.reverse).head?.map Token.start) t.start =
        .ok (Token.concat (Statement.gap s.buffer.reverse)) := by
  obtain ⟨before, hcut⟩ := hs.cut
  have hstart : (s.blockStart t).offset = (Token.concat before).utf8ByteSize := by
    rw [hcut, List.append_assoc] at hlaid
    refine hlaid.start_offset ?_
    cases s.buffer.reverse <;> rfl
  rw [hcut, ← append_content_append_gap before s.buffer.reverse] at hlaid
  have hcontent := hlaid.of_append.of_append
  refine ⟨⟨before, hcontent⟩, hcontent.sliceBetween_eq ?_ hcontent.stop_offset? ?_,
    hlaid.of_append.sliceBetween_eq hlaid.of_append.start_offset? ?_ ?_⟩
  · intro p hp
    obtain rfl := Option.some.inj hp
    exact hstart
  · rintro (hnone | hnone) <;> simp_all
  · intro p hp
    obtain rfl := Option.some.inj hp
    exact hlaid.start_offset rfl
  · rintro (hnone | hnone) <;> simp_all

/-- **A block is opened**: its head is cut out of the source. -/
theorem openBlock_guarded (hs : s.HasRead source read) (hlaid : Token.Laid source (read ++ [t])) :
    s.guarded.openBlock source t = .ok (s.openBlock t).guarded := by
  obtain ⟨⟨before, hcontent⟩, hselector, hbetween⟩ := hs.slice_head hlaid
  have hhead := hs.head?_content
  have hlast := getLast?_content s.buffer.reverse
  have hsource : source.id = t.span.source := (hlaid.source_eq (by simp)).symm
  have hbuffer : s.guarded.buffer = s.buffer.reverse := rfl
  have hidle : (⟨s.guarded.sheet, s.guarded.stack, [], 0, s.guarded.spaces, s.guarded.semicolon⟩ :
      Guarded.State) = s.idle.guarded := rfl
  have hattach := attach_guarded (s := s.idle) (hs.made.of_blocks rfl rfl) (s.blockNode t)
  rw [Guarded.State.openBlock, guarded_openBlock]
  simp only [hbuffer, hbetween, hidle, bind, Except.bind, pure, Except.pure]
  by_cases hkind : s.buffer.reverse.head?.any (·.kind == .atWord) = true
  · obtain ⟨word, hword, hatWord⟩ := (Option.any_eq_true _ _).mp hkind
    have hnode : s.blockNode t =
        { content := .atRule (AtRuleHead.ofTokens (Statement.content s.buffer.reverse)).name
            (AtRuleHead.ofTokens (Statement.content s.buffer.reverse)).params true
          raws :=
            { afterName :=
                some (AtRuleHead.ofTokens (Statement.content s.buffer.reverse)).afterName
              between := some (Token.concat (Statement.gap s.buffer.reverse)) }
          span := some ⟨source.id, s.blockStart t, t.stop⟩ } := by
      rw [blockNode, Statement.block, hhead, if_pos hkind, hsource]
    rw [if_pos hkind, Guarded.atRuleHead_eq hcontent (hhead ▸ hword) (by simpa using hatWord) hlast]
    rw [blockStart] at hnode
    dsimp only
    rw [← hnode, hattach]
    rfl
  · have hnode : s.blockNode t =
        { content := .rule (Token.concat (Statement.content s.buffer.reverse))
          raws := { between := some (Token.concat (Statement.gap s.buffer.reverse)) }
          span := some ⟨source.id, s.blockStart t, t.stop⟩ } := by
      rw [blockNode, Statement.block, hhead, if_neg hkind, hsource]
    rw [blockStart] at hnode hselector
    rw [if_neg hkind, hselector]
    dsimp only
    rw [← hnode, hattach]
    rfl

/-- **A statement that becomes a node** is put into the current block, and what is known at its end
is set behind that. -/
theorem guarded_completed (s : State) (first : Token) (run : List Token) (semicolon? : Option Token)
    (node : Option String → Node) {n : Node} {pending : String}
    (hpending : pending = if semicolon?.isSome then "" else Token.concat (Statement.gap run))
    (hnode : n =
      { node (some (if semicolon?.isSome then Token.concat (Statement.gap run) else "")) with
        span := some ⟨first.span.source, first.start,
          (semicolon?.getD ((Statement.content run).getLast?.getD first)).stop⟩ })
    (hcomment : n.content.isComment = false) :
    (s.completed first run semicolon? node).guarded =
      { (s.idle.attach n).guarded.keep pending with
        semicolon := (s.idle.attach n).guarded.semicolon || semicolon?.isSome } := by
  have hsemicolon : (s.idle.attach n).guarded.semicolon = false := by
    rw [guarded_attach]
    simp [hcomment]
  have hspaces : (s.idle.attach n).guarded.spaces ++ pending = pending := by
    rw [guarded_attach, String.empty_append]
  rw [Guarded.State.keep, hsemicolon, hspaces, Bool.false_or, hpending, hnode]
  rfl

/-- **A statement is ended**: its parts are cut out of the source, and its fault is the same. -/
theorem endStatement_guarded (hs : s.HasRead source read) (semicolon? : Option Token) :
    s.guarded.endStatement source lenient semicolon? =
      Guarded.lift guarded (s.endStatement lenient semicolon?) := by
  obtain ⟨before, hcut⟩ := hs.cut
  have hlaid := hs.laid
  have hhead := hs.head?_content
  have hbuffer : s.guarded.buffer = s.buffer.reverse := rfl
  rw [Guarded.State.endStatement, endStatement, hbuffer]
  cases hrun : s.buffer.reverse with
  | nil => rfl
  | cons first others =>
    rw [hrun] at hcut hhead
    have hlast := getLast?_content (first :: others)
    have hsource : source.id = first.span.source := (hlaid.source_eq (by simp [hcut])).symm
    rw [hcut] at hlaid
    obtain ⟨last, hcontent⟩ : ∃ last, (Statement.content (first :: others)).getLast? = some last := by
      refine Option.isSome_iff_exists.mp (List.getLast?_isSome.mpr fun hnil => ?_)
      rw [hnil] at hhead
      cases hhead
    have htrailing := slice_gap hlaid hcontent
    rw [← append_content_append_gap] at hlaid
    replace hlaid := hlaid.of_append
    have hidle : (⟨s.guarded.sheet, s.guarded.stack, [], 0, s.guarded.spaces, s.guarded.semicolon⟩ :
        Guarded.State) = s.idle.guarded := rfl
    have hattach := attach_guarded (s := s.idle) (hs.made.of_blocks rfl rfl)
    dsimp only
    simp only [hcontent, Option.getD_some, htrailing, hidle, hattach, apply_ite Prod.fst,
      apply_ite Prod.snd, bind, Except.bind, pure, Except.pure]
    by_cases hkind : first.kind = .atWord
    · rw [if_pos hkind, if_pos hkind, Guarded.atRuleHead_eq hlaid hhead hkind hlast]
      refine congrArg Except.ok (guarded_completed s first _ semicolon? _ rfl ?_ rfl).symm
      rw [hcontent, hsource, Option.getD_some]
    · rw [if_neg hkind, if_neg hkind, Guarded.declaration_eq hlaid hhead]
      cases hdeclaration : DeclarationParts.ofTokens (Statement.content (first :: others)) with
      | ok parts =>
        refine congrArg Except.ok (guarded_completed s first _ semicolon? _ rfl ?_ rfl).symm
        rw [hcontent, hsource, Option.getD_some]
      | error fault =>
        cases lenient with
        | false => cases fault <;> rfl
        | true =>
          have htext : Guarded.slice source.text first.start.offset last.stop.offset =
              .ok (Token.concat (Statement.content (first :: others))) := by
            rw [hlaid.start_offset hhead, hlaid.stop_offset hcontent]
            exact hlaid.slice_between
          have hwhole : Token.concat (first :: others) =
              Token.concat (Statement.content (first :: others)) ++
                Token.concat (Statement.gap (first :: others)) := by
            rw [Statement.concat_content_append_gap]
          simp only [Except.mapError, htext, if_true]
          rw [hwhole]
          refine congrArg Except.ok (congrArg (fun text => { s.idle.guarded with spaces := text }) ?_)
          cases semicolon? <;> simp [Guarded.State.keep, keep, String.append_assoc, guarded, idle]

/-! ### The end of a block -/

/-- **A block that is closed** gets the fields that are known at its end. -/
theorem guarded_close {parent : Block} {outer : List Block} (houter : s.outer = parent :: outer)
    (stop : Position) : (s.close stop).guarded =
      { s.guarded with stack := s.guarded.stack.tail }.finishBlock s.current (some stop) := by
  have hforest : openForest (s.close stop).blocks =
      openForest (s.outer.reverse ++ [{ s.block with node := s.closedNode stop }]) := by
    rw [close_eq houter, houter, List.reverse_cons, List.append_assoc]
    exact (openForest_close outer.reverse parent { s.block with node := s.closedNode stop }).symm
  have hsize : (openForest (s.close stop).blocks).size = (openForest s.blocks).size := by
    rw [hforest, blocks, size_openForest_append, size_openForest_append]
    rfl
  have hlabel : (openForest (s.close stop).blocks).label Sheet.root =
      ((openForest s.blocks).label Sheet.root).update s.current (s.guarded.ended (some stop)) := by
    rw [hforest]
    exact (update_openForest Sheet.root s.outer.reverse s.block (s.guarded.ended (some stop))).symm
  have hstack : openBlocks Sheet.root (s.close stop).blocks =
      openBlocks Sheet.root s.outer.reverse := by
    rw [close_eq houter, houter, List.reverse_cons, blocks, openBlocks_append, openBlocks_append]
  rw [guarded, hlabel, hsize, hstack, guarded_stack, close_eq houter]
  rfl

/-- **A closing brace** closes the current block, unless this is the root. -/
theorem closeBlock_guarded (s : State) (brace : Token) :
    s.guarded.closeBlock lenient brace = Guarded.lift guarded (s.closeBlock lenient brace) := by
  have hstack := s.guarded_stack
  cases houter : s.outer with
  | nil =>
    rw [houter] at hstack
    rw [Guarded.State.closeBlock, hstack, closeBlock, houter]
    cases lenient <;> rfl
  | cons parent outer =>
    rw [houter, List.reverse_cons, openBlocks_append, List.reverse_append] at hstack
    rw [Guarded.State.closeBlock, hstack, closeBlock, houter]
    refine congrArg Except.ok ?_
    rw [guarded_close houter, hstack]
    rfl

/-! ### Tokens -/

/-- **Both parsers do the same with a token.** -/
theorem step_guarded (hs : s.HasRead source read) (hlaid : Token.Laid source (read ++ [t])) :
    s.guarded.step source lenient t = Guarded.lift guarded (s.step lenient t) := by
  have hpush : s.guarded.push t = (s.push t).guarded := by
    rw [Guarded.State.push, guarded, guarded, push, List.reverse_cons]
    rfl
  have hempty : s.guarded.buffer.isEmpty = s.buffer.isEmpty := List.isEmpty_reverse
  rw [Guarded.State.step, step, hempty]
  split
  · cases hkind : t.kind with
    | comment => exact comment_guarded hs hlaid hkind
    | braceOpen => exact openBlock_guarded hs hlaid
    | braceClose => exact closeBlock_guarded s t
    | space | semicolon => rfl
    | _ => exact congrArg Except.ok hpush
  · cases hkind : t.kind with
    | semicolon =>
      by_cases hdepth : s.depth = 0
      · rw [if_pos (show s.guarded.depth = 0 from hdepth), if_pos hdepth]
        exact endStatement_guarded hs (some t)
      · rw [if_neg (show ¬s.guarded.depth = 0 from hdepth), if_neg hdepth]
        exact congrArg Except.ok hpush
    | braceOpen => exact openBlock_guarded hs hlaid
    | braceClose =>
      dsimp only
      rw [endStatement_guarded hs none]
      cases s.endStatement lenient none with
      | error e => rfl
      | ok s₁ => exact closeBlock_guarded s₁ t
    | _ => exact congrArg Except.ok hpush

/-- **A run keeps up what is known.** -/
theorem Runs.hasRead {ts : List Token} (h : Runs lenient s ts s') (hs : s.HasRead source read)
    (hlaid : Token.Laid source (read ++ ts)) : s'.HasRead source (read ++ ts) := by
  induction ts generalizing s read with
  | nil =>
    obtain rfl := runs_nil.mp h
    rwa [List.append_nil]
  | cons t ts ih =>
    obtain ⟨s₁, hstep, hrest⟩ := runs_cons.mp h
    rw [List.append_cons] at hlaid ⊢
    exact ih hrest (hstep.hasRead hs hlaid.of_append) hlaid

/-- **Both parsers do the same with all tokens.** -/
theorem run_guarded {ts : List Token} (hs : s.HasRead source read)
    (hlaid : Token.Laid source (read ++ ts)) :
    ts.foldlM (Guarded.State.step source lenient) s.guarded =
      Guarded.lift guarded (ts.foldlM (step lenient) s) := by
  induction ts generalizing s read with
  | nil => rfl
  | cons t ts ih =>
    rw [List.append_cons] at hlaid
    rw [List.foldlM_cons, List.foldlM_cons, step_guarded hs hlaid.of_append]
    cases hstep : s.step lenient t with
    | error e => rfl
    | ok s₁ => exact ih ((step_eq_ok_iff.mp hstep).hasRead hs hlaid.of_append) hlaid

/-! ### The end of the source -/

/-- Closing all blocks starts with the current one. -/
theorem closeAll_eq_close {parent : Block} {outer : List Block} (houter : s.outer = parent :: outer)
    (stop : Position) : s.closeAll stop = (s.close stop).closeAll stop := by
  have hclosed : (s.close stop).outer = outer := by rw [close_eq houter]
  rw [closeAll, houter, List.foldl_cons, closeAll, hclosed]

/-- **All blocks are closed**, from the inside out. -/
theorem closeAll_guarded (s : State) (stop : Position) :
    s.guarded.closeAll stop = (s.closeAll stop).guarded := by
  have hstack := s.guarded_stack
  generalize houter : s.outer = outer
  induction outer generalizing s with
  | nil =>
    rw [houter] at hstack
    rw [Guarded.State.closeAll, hstack, closeAll, houter]
    rfl
  | cons parent outer ih =>
    have hclosed : (s.close stop).outer = outer := by rw [close_eq houter]
    rw [houter, List.reverse_cons, openBlocks_append, List.reverse_append] at hstack
    rw [closeAll_eq_close houter, ← ih _ (guarded_stack _) hclosed, guarded_close houter]
    exact Guarded.State.closeAll_eq hstack stop

/-- **A statement that is ended** leaves nothing collected. -/
theorem HasRead.endStatement (hs : s.HasRead source read) {semicolon? : Option Token}
    (h : s.endStatement lenient semicolon? = .ok s') : s'.HasRead source read := by
  by_cases hbuffer : s.buffer = []
  · rw [State.endStatement, hbuffer] at h
    cases h
    exact hs
  · have hends := (endStatement_eq_ok_iff hbuffer).mp h
    exact .of_idle hs.laid (hends.made hs.made) hends.frame.1

/-- When only the root is open, what has been read is a tree. -/
theorem ofTree_tree (source : Source) (houter : s.outer = []) :
    (s.guarded.finishBlock Sheet.root none).sheet.update Sheet.root
      (fun n => { n with span := some ⟨source.id, .start, source.endPosition⟩ }) =
        Sheet.ofTree (s.tree source) := by
  have hblocks : s.blocks = [s.block] := by
    rw [blocks, houter]
    rfl
  rw [guarded, hblocks, openForest, openForest, Forest.append_nil]
  rfl

/-- The root ends as the root. -/
theorem content_finishBlock_root (houter : s.outer = []) :
    ((s.guarded.finishBlock Sheet.root none).sheet.node? Sheet.root).map Node.content =
      some s.block.node.content := by
  have hblocks : s.blocks = [s.block] := by
    rw [blocks, houter]
    rfl
  rw [guarded, hblocks, openForest, openForest, Forest.append_nil]
  rfl

/-- **Both parsers do the same at the end of the source.** -/
theorem finish_guarded (hs : s.HasRead source read) :
    s.guarded.finish source lenient = Guarded.lift Sheet.ofTree (s.finish source lenient) := by
  have hend : (if s.buffer.isEmpty then .ok s else s.endStatement lenient none) =
      s.endStatement lenient none := by
    split
    · next hempty =>
      rw [State.endStatement, List.isEmpty_iff.mp hempty]
      rfl
    · rfl
  rw [Guarded.State.finish, finish_eq_bind, endStatement_guarded hs none, hend]
  cases hended : s.endStatement lenient none with
  | error e => rfl
  | ok s₁ =>
    have hmade := (hs.endStatement hended).made
    obtain ⟨hall, hclosed⟩ := closeAll_keeps source.endPosition hmade
      fun _ hs houter => hs.close houter _
    have hroot : (s₁.closeAll source.endPosition).block.node = { content := .root } := by
      simpa [hclosed, Nested] using hall.nested
    have htree := (s₁.closeAll source.endPosition).ofTree_tree source hclosed
    have hcontent := (s₁.closeAll source.endPosition).content_finishBlock_root hclosed
    rw [hroot] at hcontent
    have hany : (((s₁.closeAll source.endPosition).guarded.finishBlock Sheet.root none).sheet.node?
        Sheet.root).any (·.content == .root) = true := by
      obtain ⟨n, hn, hroot⟩ := Option.map_eq_some_iff.mp hcontent
      rw [hn, Option.any_some, hroot]
      rfl
    have hempty : (openBlocks Sheet.root s₁.outer.reverse).reverse.isEmpty = s₁.outer.isEmpty := by
      cases houter : s₁.outer with
      | nil => rfl
      | cons => simp [openBlocks_append]
    dsimp only [Guarded.lift, Except.map, Except.mapError, bind, Except.bind]
    simp only [guarded_stack, closeAll_guarded, hany, htree, hempty]
    cases s₁.outer.isEmpty <;> cases lenient <;> rfl

/-! ### Sound states -/

/-- A block that is closed, when nothing is collected. -/
theorem HasRead.close (hs : s.HasRead source read) (hbuffer : s.buffer = []) (houter : s.outer ≠ [])
    (stop : Position) : (s.close stop).HasRead source read :=
  .of_idle hs.laid (hs.made.close houter stop) ((s.close_buffer stop).trans hbuffer)

/-- The outermost of the open blocks is the root. -/
theorem head?_openBlocks (s : State) :
    ((openBlocks Sheet.root s.blocks).map Guarded.OpenBlock.node).head? = some Sheet.root := by
  rw [blocks]
  cases s.outer.reverse <;> rfl

/-- The line upwards from the current block. -/
theorem ancestry_current (s : State) :
    s.guarded.sheet.ancestry s.current = s.guarded.stack.map Guarded.OpenBlock.node := by
  have hline := ancestry?_openForest Sheet.root s.outer.reverse s.block []
  rw [List.append_nil, ← List.map_reverse] at hline
  exact congrArg (·.getD []) hline

end Parse.State

namespace Guarded

/-- **What the parser relies on** when it has read the given tokens. -/
structure State.Sound (source : Source) (read : List Token) (s : State) : Prop where
  /-- The tokens stand in the source, from its start on. -/
  laid : Token.Laid source read
  /-- The statement is made of the last ones, -/
  cut : ∃ before, read = before ++ s.buffer
  /-- and it starts with one that starts a statement: no blank space, no comment and no brace. -/
  starts : ∀ t ∈ s.buffer.head?, t.kind.startsStatement = true
  /-- There is a current block, and the open blocks are the line from it up to the root. -/
  line : ∃ current outer, s.stack = current :: outer ∧
    s.stack.map OpenBlock.node = s.sheet.ancestry current.node ∧
      s.sheet.isAttached current.node = true ∧
        (s.sheet.node? current.node).any (·.content.isContainer) = true

/-- **The states of a parse**, with the tokens that were read: between two tokens, behind a statement
that a brace or the end of the source ends, and between two blocks that are closed. -/
inductive State.Reached (source : Source) (lenient : Bool) : List Token → State → Prop
  | start : Reached source lenient [] .start
  | token {read : List Token} {t : Token} {s s' : State} (hs : Reached source lenient read s)
      (ht : read ++ [t] <+: (tokenize source lenient).tokens)
      (hstep : s.step source lenient t = .ok s') : Reached source lenient (read ++ [t]) s'
  | statement {read : List Token} {s s' : State} (hs : Reached source lenient read s)
      (hend : s.endStatement source lenient none = .ok s') : Reached source lenient read s'
  | block {read : List Token} {s : State} {current parent : OpenBlock} {outer : List OpenBlock}
      (hs : Reached source lenient read s) (hbuffer : s.buffer = [])
      (hstack : s.stack = current :: parent :: outer) (stop : Position) :
      Reached source lenient read
        ({ s with stack := parent :: outer }.finishBlock current.node (some stop))

variable {source : Source} {lenient : Bool} {read : List Token} {s s' : State}

theorem lift_eq_ok_iff {α β : Type} {f : α → β} {result : Except ParseError α} {b : β} :
    lift f result = .ok b ↔ ∃ a, result = .ok a ∧ f a = b := by
  cases result <;> simp [lift, Except.map, Except.mapError]

theorem lift_ne_breach {α β : Type} (f : α → β) (result : Except ParseError α) (b : Breach) :
    lift f result ≠ .error (.breach b) := by
  cases result <;> simp [lift, Except.map, Except.mapError]

/-- **The states between two tokens** are states of the parse. -/
theorem State.Reached.foldlM {ts : List Token} (hs : State.Reached source lenient read s)
    (hts : read ++ ts <+: (tokenize source lenient).tokens)
    (hrun : ts.foldlM (State.step source lenient) s = .ok s') :
    State.Reached source lenient (read ++ ts) s' := by
  induction ts generalizing s read with
  | nil =>
    cases hrun
    rwa [List.append_nil]
  | cons t ts ih =>
    rw [List.foldlM_cons] at hrun
    rw [List.append_cons] at hts ⊢
    cases hstep : s.step source lenient t with
    | error e =>
      rw [hstep] at hrun
      cases hrun
    | ok s₁ =>
      rw [hstep] at hrun
      exact ih (hs.token ((List.prefix_append _ ts).trans hts) hstep) hts hrun

/-- **Every state is the state of what the parser has read.** -/
theorem State.Reached.exists_guarded (h : State.Reached source lenient read s) :
    ∃ p : Parse.State, p.HasRead source read ∧ s = p.guarded := by
  induction h with
  | start => exact ⟨.start, Parse.State.hasRead_start source, rfl⟩
  | token _ ht hstep ih =>
    obtain ⟨p, hp, rfl⟩ := ih
    obtain ⟨rest, hrest⟩ := ht
    have hlaid := tokenize_laid source lenient
    rw [← hrest] at hlaid
    rw [Parse.State.step_guarded hp hlaid.of_append] at hstep
    obtain ⟨p', hp', rfl⟩ := lift_eq_ok_iff.mp hstep
    exact ⟨p', (Parse.State.step_eq_ok_iff.mp hp').hasRead hp hlaid.of_append, rfl⟩
  | statement _ hend ih =>
    obtain ⟨p, hp, rfl⟩ := ih
    rw [Parse.State.endStatement_guarded hp] at hend
    obtain ⟨p', hp', rfl⟩ := lift_eq_ok_iff.mp hend
    exact ⟨p', hp.endStatement hp', rfl⟩
  | @block _ _ current parent outer _ hbuffer hstack stop ih =>
    obtain ⟨p, hp, rfl⟩ := ih
    have htail : p.guarded.stack.tail = parent :: outer := by rw [hstack, List.tail_cons]
    rw [p.guarded_stack] at hstack
    obtain ⟨hcurrent, -⟩ := List.cons_eq_cons.mp hstack
    cases houter : p.outer with
    | nil =>
      rw [houter] at hstack
      cases hstack
    | cons =>
      have hbuffer : p.buffer = [] := List.reverse_eq_nil_iff.mp hbuffer
      refine ⟨p.close stop, hp.close hbuffer (by simp [houter]) stop, ?_⟩
      rw [Parse.State.guarded_close houter, htail, ← hcurrent]

/-- **What is known of the states of the parser** is what the guarded parser relies on. -/
theorem sound_guarded {p : Parse.State} (hp : p.HasRead source read) :
    p.guarded.Sound source read := by
  refine ⟨hp.laid, hp.cut, hp.starts, ⟨p.current, p.block.start⟩, _, p.guarded_stack,
    p.ancestry_current.symm, ?_, ?_⟩
  · rw [Sheet.isAttached, p.ancestry_current, Parse.State.guarded, List.map_reverse,
      List.getLast?_reverse, p.head?_openBlocks]
    rfl
  · rw [p.guarded_node?, Option.any_some, hp.made.isContainer]

/-- **The guarded parser reads what the parser reads.** -/
theorem parse_eq (source : Source) (lenient : Bool) :
    parse source lenient = lift Sheet.ofTree (LosslessCss.parse source lenient) := by
  have hlaid := tokenize_laid source lenient
  have hstart := Parse.State.hasRead_start source
  rw [parse, LosslessCss.parse, ← Parse.State.guarded_start]
  rw [Parse.State.run_guarded hstart hlaid]
  cases hrun : (tokenize source lenient).tokens.foldlM (Parse.State.step lenient) .start with
  | error e => rfl
  | ok p =>
    have hread := Parse.State.Runs.hasRead hrun hstart hlaid
    cases (tokenize source lenient).failure with
    | some e => rfl
    | none => exact Parse.State.finish_guarded hread

/-- **Nothing that the parser relies on fails**: it stops only with an error of the source, it reads
the sheet that the parser reads, and all its states are sound. -/
theorem parse_ne_breach_and_sound (source : Source) (lenient : Bool) :
    (∀ b, parse source lenient ≠ .error (.breach b)) ∧
      parse source lenient = lift Sheet.ofTree (LosslessCss.parse source lenient) ∧
      ∀ read s, State.Reached source lenient read s → s.Sound source read := by
  refine ⟨fun b => ?_, parse_eq source lenient, fun read s hs => ?_⟩
  · rw [parse_eq]
    exact lift_ne_breach _ _ b
  · obtain ⟨p, hp, rfl⟩ := hs.exists_guarded
    exact sound_guarded hp

/-- A block that is not closed. -/
def openBlockSheet : Source where
  text := "a\x7bb:c"

theorem parse_ne_breach_and_sound_openBlockSheet :
    ∃ s, (tokenize openBlockSheet true).tokens.foldlM (State.step openBlockSheet true) .start = .ok s ∧
      s.stack.length = 2 ∧ s.buffer.length = 3 ∧
        s.Sound openBlockSheet (tokenize openBlockSheet true).tokens := by
  have hrun : ((tokenize openBlockSheet true).tokens.foldlM
      (State.step openBlockSheet true) .start).toOption.any (fun s =>
        s.stack.length == 2 && s.buffer.length == 3) = true := by
    decide +kernel
  obtain ⟨s, hs, hrun⟩ := exists_ok_of_any hrun
  obtain ⟨hstack, hbuffer⟩ := Bool.and_eq_true_iff.mp hrun
  obtain ⟨-, -, hsound⟩ := parse_ne_breach_and_sound openBlockSheet true
  exact ⟨s, hs, beq_iff_eq.mp hstack, beq_iff_eq.mp hbuffer,
    hsound _ _ (State.Reached.start.foldlM (List.prefix_refl _) hs)⟩

end Guarded

end LosslessCss
