import LosslessCss.Proofs.Cutting
import LosslessCss.Proofs.SpanNesting

/-!
# What a parse records of a node

A parse, strict or lenient, makes nodes in three ways: a comment, a statement that ends, and a block
that is closed.  This module says what all of them have in common.  A node has the gaps of its kind
and no others (`Content.Slots`), none but the root is a root, and a node without a block holds
nothing (`Tree.Made`).

In a strict parse the gaps hold trivia only (`Node.GapsAreTrivia`).  Text waits in one place for
whatever node or end of a block comes next, so the reason is an invariant of the whole parse: what
waits is blank space and semicolons, and the parts that a statement is taken apart into add up to
its text.  That part of the argument is `reads_of_parse`; what is left is to read it off node by
node.

## Main Definitions

* `Content.Slots` : the gaps that a node of a kind has
* `Tree.Made` : a node with its children, as a parse makes it
* `Node.GapsAreTrivia`

## Main Statements

* `made_of_parse` : all trees of a parse are made so
* `gapsAreTrivia_of_parse`
-/

namespace LosslessCss

/-! ### The gaps of each kind -/

/-- **The gaps that a node of a kind has**, and that a parse records: exactly these.  The mark of a
declaration is recorded if it is important. -/
def Content.Slots (raws : Raws) : Content → Prop
  | .root => ∃ after semicolon, raws = { after := some after, semicolon := some semicolon }
  | .atRule _ _ true => ∃ before afterName between after semicolon, raws =
      { before := some before, afterName := some afterName, between := some between,
        after := some after, semicolon := some semicolon }
  | .atRule _ _ false => ∃ before afterName between, raws =
      { before := some before, afterName := some afterName, between := some between }
  | .rule _ => ∃ before between after semicolon, raws =
      { before := some before, between := some between, after := some after,
        semicolon := some semicolon }
  | .declaration _ _ important => ∃ before between mark afterValue, raws =
      { before := some before, between := some between, important := mark,
        afterValue := some afterValue } ∧ mark.isSome = important
  | .comment _ => ∃ before left right, raws =
      { before := some before, left := some left, right := some right }

/-- The node of an open block lacks only what its end records. -/
def Node.Awaits (n : Node) : Prop :=
  ∀ after semicolon,
    n.content.Slots { n.raws with after := some after, semicolon := some semicolon }

/-- **A tree as a parse makes it**, below the root: its node has the gaps of its kind, and holds
nothing without a block. -/
structure Tree.Made (t : Tree Node) : Prop where
  ne_root : t.value.content ≠ .root
  slots : t.value.content.Slots t.value.raws
  leaf : t.value.content.opensBlock = false → t.children = .nil

namespace Forest

/-- All trees of a forest are as a parse makes them. -/
def Made (f : Forest Node) : Prop := ∀ t ∈ f.subtrees, t.Made

theorem Made.snoc {f children : Forest Node} {n : Node} (hf : f.Made)
    (hn : Tree.Made ⟨n, children⟩) (hchildren : children.Made) :
    (f ++ cons n children nil).Made := by
  intro t ht
  simp only [subtrees_append, subtrees, List.append_nil, List.mem_append, List.mem_cons] at ht
  rcases ht with ht | rfl | ht
  · exact hf t ht
  · exact hn
  · exact hchildren t ht

end Forest

/-! ### Making nodes -/

namespace Parse.State

variable {lenient : Bool} {s s' : State} {ts : List Token}

/-- **What a parse has made so far**: finished trees, and the nodes of open blocks, which lack only
what their ends record. -/
structure Made (s : State) : Prop where
  nested : Nested (s.block :: s.outer)
  awaits : ∀ b ∈ s.block :: s.outer, b.node.Awaits
  finished : ∀ b ∈ s.block :: s.outer, (Forest.ofLatestFirst b.children).Made

theorem start_made : start.Made where
  nested := rfl
  awaits := by
    intro b hb
    obtain rfl : b = start.block := by simpa [start] using hb
    exact fun after semicolon => ⟨after, semicolon, rfl⟩
  finished := by
    intro b hb
    obtain rfl : b = start.block := by simpa [start] using hb
    simp [start, Forest.Made, Forest.subtrees]

/-- What was made so far are the blocks of a state. -/
theorem Made.of_blocks (hs : s.Made) (hblock : s'.block = s.block) (houter : s'.outer = s.outer) :
    s'.Made := by
  refine ⟨?_, ?_, ?_⟩ <;> rw [hblock, houter]
  · exact hs.nested
  · exact hs.awaits
  · exact hs.finished

/-- **One more tree** in the current block. -/
theorem Made.snoc {b : Block} {outer : List Block} {n : Node} {children : Forest Node}
    (hnested : Nested (b :: outer)) (hawaits : ∀ a ∈ b :: outer, a.node.Awaits)
    (hfinished : ∀ a ∈ b :: outer, (Forest.ofLatestFirst a.children).Made)
    (hn : Tree.Made ⟨n, children⟩) (hchildren : children.Made)
    (hblock : s.block = { b with children := ⟨n, children⟩ :: b.children })
    (houter : s.outer = outer) : s.Made := by
  subst houter
  refine ⟨?_, ?_, ?_⟩ <;> rw [hblock]
  · exact (nested_children b _ s.outer).mpr hnested
  · intro a ha
    rcases List.mem_cons.mp ha with rfl | ha
    · exact hawaits b List.mem_cons_self
    · exact hawaits a (List.mem_cons_of_mem _ ha)
  · intro a ha
    rcases List.mem_cons.mp ha with rfl | ha
    · rw [Forest.ofLatestFirst_cons]
      exact (hfinished b List.mem_cons_self).snoc hn hchildren
    · exact hfinished a (List.mem_cons_of_mem _ ha)

/-- A node without a block. -/
theorem Made.attach (hs : s.Made) {n : Node} (hroot : n.content ≠ .root)
    (hslots : n.content.Slots (s.placed n).raws) : (s.attach n).Made := by
  have hn : Tree.Made ⟨s.placed n, .nil⟩ := ⟨hroot, hslots, fun _ => rfl⟩
  refine Made.snoc hs.nested hs.awaits hs.finished hn ?_ rfl rfl
  simp [Forest.Made, Forest.subtrees]

/-- **The end of a statement** makes a node, if the statement is one. -/
theorem Ends.made {semicolon? : Option Token} (hs : s.Made) (h : s.Ends lenient semicolon? s') :
    s'.Made := by
  cases h with
  | @atRule first others hrun hkind =>
    refine Made.of_blocks (hs.attach (n := { Statement.atRule (first :: others) _ with span := _ })
      ?_ ?_) rfl rfl
    · simp [Statement.atRule]
    · exact ⟨_, _, _, rfl⟩
  | @declaration first others parts hrun hkind hparts =>
    refine Made.of_blocks (hs.attach (n := { Statement.declaration parts _ with span := _ })
      ?_ ?_) rfl rfl
    · simp [Statement.declaration]
    · exact ⟨_, _, _, _, rfl, rfl⟩
  | kept => exact hs.of_blocks rfl rfl

/-- The head of a block lacks only what its end records. -/
theorem placed_block_awaits (s : State) (run : List Token) (span : Option Span) :
    (s.placed { Statement.block run with span := span }).Awaits := by
  intro after semicolon
  unfold placed Statement.block
  split
  · exact ⟨_, _, _, _, _, rfl⟩
  · exact ⟨_, _, _, _, rfl⟩

theorem Made.openBlock (hs : s.Made) (brace : Token) : (s.openBlock brace).Made := by
  rw [openBlock_eq_block]
  refine ⟨⟨Statement.block_opensBlock _, rfl, hs.nested⟩, ?_, ?_⟩
  · intro b hb
    rcases List.mem_cons.mp hb with rfl | hb
    · exact s.placed_block_awaits _ _
    · exact hs.awaits b hb
  · intro b hb
    rcases List.mem_cons.mp hb with rfl | hb
    · simp [Forest.Made, Forest.subtrees]
    · exact hs.finished b hb

/-- **The end of a block** records what its node lacks. -/
theorem Made.close (hs : s.Made) (houter : s.outer ≠ []) (stop : Position) :
    (s.close stop).Made := by
  obtain ⟨parent, outer, hcons⟩ := List.exists_cons_of_ne_nil houter
  obtain ⟨hnested, hawaits, hfinished⟩ := hs
  rw [hcons] at hnested hawaits hfinished
  have hopens : s.block.node.content.opensBlock = true := hnested.1
  rw [close_eq hcons]
  refine Made.snoc hnested.2.2 (fun b hb => hawaits b (List.mem_cons_of_mem _ hb))
    (fun b hb => hfinished b (List.mem_cons_of_mem _ hb)) ⟨?_, ?_, ?_⟩
    (hfinished s.block List.mem_cons_self) rfl rfl
  · rintro hroot
    rw [closedNode_content] at hroot
    rw [hroot] at hopens
    cases hopens
  · exact hawaits s.block List.mem_cons_self _ _
  · rintro hleaf
    rw [closedNode_content, hopens] at hleaf
    cases hleaf

/-- **One token** makes nodes as they should be. -/
theorem Steps.made {t : Token} (hs : s.Made) (h : s.Steps lenient t s') : s'.Made := by
  cases h with
  | gap | stray | first | more => exact hs.of_blocks rfl rfl
  | comment => exact hs.attach (by simp) ⟨_, _, _, rfl⟩
  | openBlock => exact hs.openBlock t
  | close _ _ houter => exact hs.close houter _
  | semicolon _ _ _ hends => exact hends.made hs
  | endClose _ _ houter hends => exact (hends.made hs).close (by rwa [hends.frame.2.2.1]) _
  | endStray _ _ _ _ hends => exact (hends.made hs).of_blocks rfl rfl

/-- **A run** makes nodes as they should be. -/
theorem Runs.made (hs : s.Made) (h : Runs lenient s ts s') : s'.Made := by
  induction ts generalizing s with
  | nil =>
    obtain rfl := runs_nil.mp h
    exact hs
  | cons t ts ih =>
    obtain ⟨s₁, hstep, hrest⟩ := runs_cons.mp h
    exact ih (hstep.made hs) hrest

end Parse.State

/-- **All trees of a parse are made so**, strict or lenient, and so is the root. -/
theorem made_of_parse {source : Source} {lenient : Bool} {t : Tree Node}
    (h : parse source lenient = .ok t) :
    t.value.content = .root ∧ t.value.content.Slots t.value.raws ∧ t.children.Made := by
  obtain ⟨-, s, hrun, hfinish⟩ := parse_eq_ok_iff.mp h
  obtain ⟨s₁, hlast, -, rfl⟩ := Parse.State.finish_eq_ok_iff.mp hfinish
  have hs := hrun.made Parse.State.start_made
  have hs₁ : s₁.Made := by
    cases hlast with
    | nothing => exact hs
    | statement _ hends => exact hends.made hs
  obtain ⟨hall, houter⟩ := Parse.State.closeAll_keeps source.endPosition hs₁
    fun _ hs houter => hs.close houter _
  have hroot : (s₁.closeAll source.endPosition).block.node = { content := .root } := by
    simpa [houter, Parse.Nested] using hall.nested
  refine ⟨congrArg Node.content hroot, ?_, hall.finished _ List.mem_cons_self⟩
  exact hall.awaits _ List.mem_cons_self _ _

/-! ### Trivia -/

/-- A text of white space. -/
def IsWhiteText (x : String) : Prop := ∀ c ∈ x.toList, Text.isWhiteSpace c = true

/-- **The gap between property and value**: blank space, the colon, and blank space and
comments. -/
def IsColonGap (x : String) : Prop :=
  ∃ blank trivia k, x.toList = blank ++ ':' :: trivia ∧
    (∀ c ∈ blank, Token.isBlank c = true) ∧ Trivia Token.isBlank trivia k

/-- **The gaps of a node hold trivia only**, and are those of its kind. -/
structure Node.GapsAreTrivia (n : Node) : Prop where
  slots : n.content.Slots n.raws
  before : ∀ x ∈ n.raws.before, IsGapText x
  after : ∀ x ∈ n.raws.after, IsGapText x
  between : ∀ x ∈ n.raws.between,
    if n.content.isDeclaration then IsColonGap x else IsBlankText x
  afterName : ∀ x ∈ n.raws.afterName, IsBlankText x
  afterValue : ∀ x ∈ n.raws.afterValue, IsBlankText x
  important : ∀ x ∈ n.raws.important, IsMark x.toList
  left : ∀ x ∈ n.raws.left, IsWhiteText x
  right : ∀ x ∈ n.raws.right, IsWhiteText x

/-- The gaps inside a comment are white space. -/
theorem CommentParts.ofText_white (comment : String) :
    IsWhiteText (ofText comment).left ∧ IsWhiteText (ofText comment).right := by
  unfold ofText
  dsimp only
  split
  · next hblank =>
    -- All of a blank comment is the gap on the left.
    have hall := dropTrailing_eq_nil_iff.mp (List.isEmpty_iff.mp hblank)
    refine ⟨fun c hc => ?_, by simp [IsWhiteText]⟩
    rw [String.toList_ofList, ← Text.leadingSpace_append_trimStart (List.dropLast _)] at hc
    rcases List.mem_append.mp hc with hc | hc
    · exact List.mem_takeWhile_imp hc
    · exact hall c hc
  · refine ⟨fun c hc => ?_, fun c hc => ?_⟩ <;> rw [String.toList_ofList] at hc
    · exact List.mem_takeWhile_imp hc
    · exact of_mem_takeTrailing hc

/-- The gap behind the name of an at-rule is blank. -/
theorem AtRuleHead.ofTokens_afterName {run : List Token}
    (hspells : ∀ t ∈ run, t.kind.Spells t.text.toList) : IsBlankText (ofTokens run).afterName := by
  cases run with
  | nil => exact isBlankText_empty
  | cons word rest =>
    refine isBlankText_concat (fun t ht => List.mem_takeWhile_imp ht) fun t ht => hspells t ?_
    exact List.mem_cons_of_mem _ (List.takeWhile_subset _ ht)

/-- **The gap between property and value** is what the text of the run leaves between them. -/
theorem Statement.Stands.isColonGap {run : List Token} {depth : Nat} {text ahead : List Char}
    (h : Stands run depth text ahead) (hstops : Token.Stops ahead) {parts : DeclarationParts}
    (hparts : DeclarationParts.ofTokens run = .ok parts) : IsColonGap parts.between := by
  obtain ⟨blank, trivia, value, k, htext, hblank, htrivia, hsplit, -⟩ := h.exists_parts hstops hparts
  refine ⟨blank, trivia, k, ?_, hblank, htrivia⟩
  have hvalue : parts.value.toList ++ (parts.important.getD "").toList = value := by
    have happend := splitImportant_append value
    rw [hsplit] at happend
    cases himportant : parts.important <;> simpa [himportant] using happend
  -- Property and value are taken off the two ends of the text, which leaves the gap.
  have hrun := congrArg String.toList (DeclarationParts.ofTokens_text hparts)
  rw [h.text_eq, htext] at hrun
  simp only [String.toList_append, List.append_assoc, hvalue] at hrun
  have hbetween : parts.between.toList ++ value = (blank ++ ':' :: trivia) ++ value := by
    simpa using List.append_cancel_left hrun
  exact List.append_cancel_right hbetween

/-- **The mark of a declaration** marks it. -/
theorem DeclarationParts.isMark_important {run : List Token} {parts : DeclarationParts}
    (hparts : ofTokens run = .ok parts) : ∀ x ∈ parts.important, IsMark x.toList := by
  obtain ⟨front, colon, back, -, -, -, -, rfl⟩ := ofTokens_eq_ok_iff.mp hparts
  intro x hx
  obtain ⟨mark, hmark, rfl⟩ := Option.map_eq_some_iff.mp hx
  rw [String.toList_ofList]
  exact (isMark_of_splitImportant (Prod.ext rfl hmark)).2

/-- **What was written has trivia in its gaps**, if it has the gaps of its kind. -/
theorem Node.Written.gapsAreTrivia {n : Node} (hwritten : n.Written) (hspaced : n.Spaced)
    (hslots : n.content.Slots n.raws) : n.GapsAreTrivia := by
  -- The slots say which gaps there are; what was written says what stands in them.
  obtain ⟨content, raws, span⟩ := n
  cases hwritten with
  | @comment inner hinner hcontent hleft hright =>
    obtain rfl : content = _ := hcontent
    have hwhite := CommentParts.ofText_white
      (String.ofList ('/' :: '*' :: (inner ++ ['*', '/'])))
    obtain ⟨before, left, right, rfl⟩ := hslots
    obtain rfl := Option.some.inj hleft
    obtain rfl := Option.some.inj hright
    exact { slots := ⟨_, _, _, rfl⟩, before := hspaced.before, after := hspaced.after,
            between := by simp, afterName := by simp, afterValue := by simp, important := by simp,
            left := by simpa using hwhite.1, right := by simpa using hwhite.2 }
  | @run run depth text ahead hstands hstops hcontent hrecords =>
    obtain ⟨last, -, hlexes⟩ := hstands.lexes
    cases content with
    | root => cases hcontent
    | comment => cases hcontent
    | rule selector =>
      obtain ⟨gap, hgap, hblank⟩ := hrecords
      obtain ⟨before, between, after, semicolon, rfl⟩ := hslots
      obtain rfl := Option.some.inj hgap
      exact { slots := ⟨_, _, _, _, rfl⟩, before := hspaced.before, after := hspaced.after,
              between := fun x hx => by cases hx; exact hblank, afterName := by simp,
              afterValue := by simp, important := by simp, left := by simp, right := by simp }
    | atRule name params hasBody =>
      obtain ⟨hname, gap, hgap, hblank⟩ := hrecords
      have hafterName := AtRuleHead.ofTokens_afterName hlexes.spells_tokens
      have hbetween : ∀ x ∈ raws.between, IsBlankText x := fun x hx => by
        obtain rfl := Option.some.inj (hgap.symm.trans hx)
        exact hblank
      have hslots' := hslots
      cases hasBody with
      | true =>
        obtain ⟨before, afterName, between, after, semicolon, rfl⟩ := hslots
        obtain rfl := Option.some.inj hname
        exact { slots := hslots', before := hspaced.before, after := hspaced.after,
                between := hbetween, afterName := by simpa using hafterName,
                afterValue := by simp, important := by simp, left := by simp, right := by simp }
      | false =>
        obtain ⟨before, afterName, between, rfl⟩ := hslots
        obtain rfl := Option.some.inj hname
        exact { slots := hslots', before := hspaced.before, after := hspaced.after,
                between := hbetween, afterName := by simpa using hafterName,
                afterValue := by simp, important := by simp, left := by simp, right := by simp }
    | declaration property value important =>
      obtain ⟨parts, hparts, hbetween, himportant, gap, hgap, hblank⟩ := hrecords
      have hslots' := hslots
      obtain ⟨before, between, mark, afterValue, rfl, -⟩ := hslots
      obtain rfl := Option.some.inj hbetween
      obtain rfl : mark = _ := himportant
      obtain rfl := Option.some.inj hgap
      exact { slots := hslots', before := hspaced.before, after := hspaced.after,
              between := fun x hx => by cases hx; exact hstands.isColonGap hstops hparts,
              afterName := by simp,
              afterValue := by simpa using hblank,
              important := DeclarationParts.isMark_important hparts,
              left := by simp, right := by simp }

/-- **Gaps hold trivia only.**  Every node of a strict parse, the root included, has the gaps of its
kind and no others, and nothing stands in them but blank space, stray semicolons, the colon of a
declaration with the comments behind it, the mark of an important one, and the white space at the
ends of a comment. -/
theorem gapsAreTrivia_of_parse {source : Source} {t : Tree Node} (h : parse source false = .ok t) :
    ∀ n ∈ t.preorder, n.GapsAreTrivia := by
  obtain ⟨hroot, hslots, hmade⟩ := made_of_parse h
  obtain ⟨-, -, hafter, hnodes⟩ := reads_of_parse h
  intro n hn
  rcases List.mem_cons.mp hn with rfl | hn
  · have hslots' := hslots
    obtain ⟨⟨content, raws, span⟩, children⟩ := t
    obtain rfl : content = .root := hroot
    obtain ⟨after, semicolon, rfl⟩ := hslots
    exact { slots := hslots', before := by simp, after := hafter, between := by simp,
            afterName := by simp, afterValue := by simp, important := by simp, left := by simp,
            right := by simp }
  · obtain ⟨hwritten, hspaced⟩ := hnodes n hn
    rw [Forest.preorder_eq_map_subtrees] at hn
    obtain ⟨u, hu, rfl⟩ := List.mem_map.mp hn
    exact hwritten.gapsAreTrivia hspaced (hmade u hu).slots

theorem gapsAreTrivia_of_parse_gappySheet :
    ∃ t, parse gappySheet false = .ok t ∧
      t.preorder.map (·.content.kindName) =
        ["root", "comment", "atrule", "rule", "decl", "atrule", "decl"] ∧
      t.preorder.map (·.raws.between) =
        [none, none, some "", some " ", some " : ", some " ", some ":/**/"] ∧
      ∀ n ∈ t.preorder, n.GapsAreTrivia := by
  have hrun : (parse gappySheet false).toOption.any (fun t =>
      t.preorder.map (·.content.kindName) ==
          ["root", "comment", "atrule", "rule", "decl", "atrule", "decl"] &&
        t.preorder.map (·.raws.between) ==
          [none, none, some "", some " ", some " : ", some " ", some ":/**/"]) = true := by
    decide +kernel
  obtain ⟨t, ht, hrun⟩ := exists_ok_of_any hrun
  obtain ⟨hkinds, hgaps⟩ := Bool.and_eq_true_iff.mp hrun
  exact ⟨t, ht, beq_iff_eq.mp hkinds, beq_iff_eq.mp hgaps, gapsAreTrivia_of_parse ht⟩

end LosslessCss
