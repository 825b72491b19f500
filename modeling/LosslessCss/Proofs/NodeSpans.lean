import LosslessCss.Proofs.EditedSheets
import LosslessCss.Proofs.SpanNesting
import LosslessCss.Proofs.Violations

/-!
# The span of a node holds its text

What a node of a strict parse is printed as can be cut out of the source at the span of the node.
There is one difference.  A statement without a block is printed alone with a semicolon, and its
span has that semicolon only if it was ended by one; a closing brace or the end of the source is no
part of it.

Places come from the tokens, and printed text comes from the fields of a whole subtree.  The two
meet in `Parse.State.text`, since what a parse has read so far is the text that its state stands
for: a block starts where that text had reached when its head was collected, and ends where it has
reached when the block is closed.

## Main Definitions

* `Statement.endAt` : the token that ends the statement at a place
* `Content.PrintsAs` : how the text of a node is completed when it is printed
* `Tree.replay` : the text of a tree without the gap in front of it
* `Forest.Located` : every node stands where the text in front of it ends, and spans its own text
* `Parse.State.Located` : the same for all that a parse has read

## Main Statements

* `Parse.State.Runs.located`
* `printAlone_eq_slice`
-/

namespace LosslessCss

/-! ### The ends of statements -/

/-- A statement without a block: a declaration, or an at-rule that has no body. -/
def Content.isPlain : Content → Bool
  | declaration .. => true
  | atRule _ _ hasBody => !hasBody
  | root | rule _ | comment _ => false

/-- The first token that does not go on with a statement in which `depth` parentheses and brackets
are open. -/
def Statement.firstBehind? (depth : Nat) : List Token → Option Token
  | [] => none
  | t :: ts =>
    if t.kind.continuesStatement depth then firstBehind? (t.kind.depthBehind depth) ts else some t

/-- **The token that ends the statement at a place**; none if the source ends it. -/
def Statement.endAt (tokens : List Token) (start : Position) : Option Token :=
  firstBehind? 0 (tokens.dropWhile (·.start != start))

/-- **What is printed of a node** whose span holds `text`: this text, with a semicolon if the node
is a statement that a closing brace or the end of the source ended. -/
inductive Content.PrintsAs (c : Content) (end? : Option Token) (text : String) : String → Prop
  | whole (hplain : c.isPlain = false) : PrintsAs c end? text text
  | closed {t : Token} (hplain : c.isPlain = true) (hend : end? = some t)
      (hkind : t.kind = .semicolon) : PrintsAs c end? text text
  | unclosed (hplain : c.isPlain = true) (hend : ∀ t ∈ end?, t.kind = .braceClose) :
      PrintsAs c end? text (text ++ ";")

/-- A run is followed by the token that ends it. -/
theorem Statement.firstBehind?_append {run after : List Token} {depth depth' : Nat}
    (hdepth : depth? depth (run.map Token.kind) = some depth')
    (hends : ∀ t ∈ after.head?, t.kind.continuesStatement depth' = false) :
    firstBehind? depth (run ++ after) = after.head? := by
  induction run generalizing depth with
  | nil =>
    obtain rfl : depth = depth' := by simpa [depth?] using hdepth
    cases after with
    | nil => rfl
    | cons t after => simp [firstBehind?, hends t rfl]
  | cons t run ih =>
    have hcontinues : t.kind.continuesStatement depth = true := by
      by_contra hstop
      simp [depth?, hstop] at hdepth
    rw [List.map_cons, depth?, if_pos hcontinues] at hdepth
    rw [List.cons_append, firstBehind?, if_pos hcontinues, ih hdepth]

/-! ### The tokens of a source -/

/-- **The tokens of a source**: they are its text, stand in a row, and none of them is empty. -/
structure Token.Cover (source : Source) (tokens : List Token) : Prop where
  text : Token.concat tokens = source.text
  inRow : Token.InRow source.id .start tokens
  spells : ∀ t ∈ tokens, t.kind.Spells t.text.toList
  nonempty : ∀ t ∈ tokens, t.text ≠ ""

namespace Token.Cover

variable {source : Source} {before run after : List Token} {t first last : Token}

/-- A run of tokens starts where the text in front of it ends. -/
theorem start_eq (h : Cover source (before ++ (run ++ after))) (ht : t ∈ run.head?) :
    t.start = Position.start.advance (concat before) :=
  (InRow.append_iff.mp (InRow.append_iff.mp h.inRow).2).1.start_eq ht

/-- **The span of a run of tokens** holds their text. -/
theorem covers (h : Cover source (before ++ (run ++ after))) (hfirst : first ∈ run.head?)
    (hlast : last ∈ run.getLast?) :
    Span.Covers ⟨first.span.source, first.start, last.stop⟩ source (concat run) := by
  have hrun := (InRow.append_iff.mp (InRow.append_iff.mp h.inRow).2).1
  refine ⟨concat before, concat after, ?_, ?_⟩
  · rw [← h.text, concat_append, concat_append, String.append_assoc]
  · rw [hrun.source_eq (List.mem_of_head? hfirst), hrun.start_eq hfirst, hrun.stop_eq hlast,
      Position.advance_append]

/-- **A place names the tokens behind it.** -/
theorem dropWhile_start (h : Cover source (before ++ t :: after)) :
    (before ++ t :: after).dropWhile (·.start != t.start) = t :: after := by
  have hstart : t.start = Position.start.advance (concat before) :=
    start_eq (show Cover source (before ++ ([t] ++ after)) from h) rfl
  have hbefore : ∀ u ∈ before, (u.start != t.start) = true := by
    intro u hu
    obtain ⟨us, vs, rfl⟩ := List.append_of_mem hu
    rw [List.append_assoc, List.cons_append] at h
    have hu' : u.start = Position.start.advance (concat us) :=
      start_eq (show Cover source (us ++ ([u] ++ (vs ++ t :: after))) from h) rfl
    have hne : u.text.utf8ByteSize ≠ 0 := by
      simpa using h.nonempty u (by simp)
    have hoffset : u.start.offset ≠ t.start.offset := by
      rw [hstart, hu']
      simp only [Position.advance_offset, concat_append, concat_cons, String.utf8ByteSize_append]
      omega
    exact bne_iff_ne.mpr fun hsame => hoffset (by rw [hsame])
  rw [List.dropWhile_append_of_pos hbefore, List.dropWhile_cons_of_neg (by simp)]

/-- **The end of a statement** that stands in the tokens. -/
theorem endAt_eq (h : Cover source (before ++ (run ++ after))) (hfirst : first ∈ run.head?)
    {depth : Nat} (hdepth : Statement.depth? 0 (run.map Token.kind) = some depth)
    (hends : ∀ t ∈ after.head?, t.kind.continuesStatement depth = false) :
    Statement.endAt (before ++ (run ++ after)) first.start = after.head? := by
  obtain ⟨others, rfl⟩ := List.head?_eq_some_iff.mp hfirst
  have hbehind : (before ++ first :: (others ++ after)).dropWhile (·.start != first.start) =
      first :: (others ++ after) := dropWhile_start h
  rw [Statement.endAt, List.cons_append, hbehind, ← List.cons_append]
  exact Statement.firstBehind?_append hdepth hends

end Token.Cover

/-- What a strict parse reads are the tokens of the source. -/
theorem tokenize_cover {source : Source} (h : (tokenize source false).failure = none) :
    Token.Cover source (tokenize source false).tokens := by
  obtain ⟨htext, hspells⟩ := tokenize_covers h
  exact ⟨htext, tokenize_inRow source false, hspells,
    (Reader.ofSource_fresh source false).text_ne_empty⟩

/-! ### Trees and their spans -/

/-- **The text of a tree** from its head to its end, with its recorded gaps. -/
def Tree.replay (closed : Bool) (t : Tree Node) : String :=
  Layout.faithfulHead id closed t.value ++
    if t.value.content.opensBlock then
      "\x7b" ++ t.children.replay (t.value.raws.semicolon.getD false) ++
        t.value.raws.after.getD "" ++ "\x7d"
    else ""

/-- The text of a tree with the gap in front of it. -/
theorem Tree.before_append_replay (n : Node) (children : Forest Node) (closed : Bool) :
    n.raws.before.getD "" ++ (⟨n, children⟩ : Tree Node).replay closed =
      n.opening closed ++
        if n.content.opensBlock then
          children.replay (n.raws.semicolon.getD false) ++ n.raws.after.getD "" ++ "\x7d"
        else "" := by
  cases hopens : n.content.opensBlock <;>
    simp [replay, Node.opening, hopens, String.append_assoc]

/-- The text of a forest, tree by tree. -/
theorem Forest.replay_cons (n : Node) (children next : Forest Node) (closed : Bool) :
    (cons n children next).replay closed =
      n.raws.before.getD "" ++ (⟨n, children⟩ : Tree Node).replay (closed || next.hasStatement) ++
        next.replay closed := by
  rw [replay, Tree.before_append_replay]

/-- **Printing a node alone** writes its text, closed by a semicolon. -/
theorem Tree.printAlone_eq_replay {t : Tree Node} (hchildren : t.children.Recorded)
    (hafter : t.value.content.opensBlock = true → t.value.raws.after.isSome) (depth : Nat) :
    t.printAlone (.faithful id) depth = t.replay true := by
  have hinner := Forest.print_faithful_eq_replay hchildren
    (t.value.raws.semicolon.getD false) false (depth + 1)
  simp only [printAlone, Layout.wrap, replay]
  cases hopens : t.value.content.opensBlock with
  | false => rfl
  | true =>
    obtain ⟨after, hafter⟩ := Option.isSome_iff_exists.mp (hafter hopens)
    simp only [if_true, Layout.faithful, hafter, Option.getD_some] at hinner ⊢
    rw [hinner]

/-- **The span of a node holds its text**, as far as it was in the source. -/
def Tree.Spans (source : Source) (tokens : List Token) (t : Tree Node) : Prop :=
  ∃ span text, t.value.span = some span ∧ span.Covers source text ∧
    t.value.content.PrintsAs (Statement.endAt tokens span.start) text (t.replay true)

/-- **Every node stands in its place** behind the text `front`: where the text in front of it ends,
and over its own text. -/
def Forest.Located (source : Source) (tokens : List Token) :
    (closed : Bool) → (front : String) → Forest Node → Prop
  | _, _, nil => True
  | closed, front, cons n children next =>
    (⟨n, children⟩ : Tree Node).Spans source tokens ∧
      n.span.map Span.start = some (Position.start.advance (front ++ n.raws.before.getD "")) ∧
        children.Located source tokens (n.raws.semicolon.getD false)
          (front ++ n.opening (closed || next.hasStatement)) ∧
        next.Located source tokens closed (front ++ n.raws.before.getD "" ++
          (⟨n, children⟩ : Tree Node).replay (closed || next.hasStatement))

open Statement (IsRun Between Terminates)

variable {source : Source} {tokens : List Token}

namespace Forest

/-- Where nodes stand in an appended forest. -/
theorem located_append {f g : Forest Node} {closed : Bool} {front : String} :
    (f ++ g).Located source tokens closed front ↔
      f.Located source tokens (closed || g.hasStatement) front ∧
        g.Located source tokens closed (front ++ f.replay (closed || g.hasStatement)) := by
  induction f generalizing front with
  | nil => simp [Located, replay]
  | cons n children next _ ih =>
    have hflag : (closed || (next ++ g).hasStatement) =
        (closed || g.hasStatement || next.hasStatement) := by
      rw [hasStatement_append]
      cases closed <;> simp [Bool.or_comm]
    rw [cons_append, Located, Located, ih, hflag, replay_cons]
    simp only [String.append_assoc, and_assoc]

/-- **What is in its place spans its text**, at every depth. -/
theorem Located.spans {f : Forest Node} {closed : Bool} {front : String}
    (h : f.Located source tokens closed front) {t : Tree Node} (ht : t ∈ f.subtrees) :
    t.Spans source tokens := by
  induction f generalizing closed front with
  | nil => cases ht
  | cons n children next ihChildren ihNext =>
    obtain ⟨hspans, -, hchildren, hnext⟩ := h
    rcases List.mem_cons.mp ht with rfl | ht
    · exact hspans
    · rcases List.mem_append.mp ht with ht | ht
      · exact ihChildren hchildren ht
      · exact ihNext hnext ht

end Forest

/-! ### Statements and their spans -/

/-- A statement without a block is no comment and opens no block. -/
theorem Content.of_isPlain {c : Content} (h : c.isPlain = true) :
    c.isComment = false ∧ c.opensBlock = false := by
  cases c <;> simp_all [isPlain, isComment, opensBlock]

/-- The text of a statement without a block is its head. -/
theorem Tree.replay_of_isPlain {n : Node} (h : n.content.isPlain = true) (closed : Bool) :
    Tree.replay closed ⟨n, .nil⟩ = Layout.faithfulHead id closed n := by
  rw [Tree.replay, (Content.of_isPlain h).2]
  exact String.append_empty

/-- **A statement that is ended by a brace** or by the end of the source spans its tokens up to the
blank space behind them. -/
theorem Token.Cover.content_covers {before run after : List Token} {first : Token} {depth : Nat}
    (h : Cover source (before ++ (run ++ after))) (hfirst : first ∈ run.head?)
    (hrun : IsRun run depth) :
    Span.Covers ⟨first.span.source, first.start,
      ((Statement.content run).getLast?.getD first).stop⟩ source
        (concat (Statement.content run)) := by
  have hspace : first.isSpace = false := by
    have hstarts := hrun.starts first hfirst
    cases hkind : first.kind <;> simp_all [Token.isSpace, Token.Kind.startsStatement]
  obtain ⟨others, rfl⟩ := List.head?_eq_some_iff.mp hfirst
  have hcontent : Statement.content (first :: others) = first :: Statement.content others :=
    dropTrailing_cons_of_neg others hspace
  have hsplit : Statement.content (first :: others) ++ Statement.gap (first :: others) =
      first :: others := dropTrailing_append_takeTrailing _ _
  rw [← hsplit, List.append_assoc] at h
  refine h.covers (by rw [hcontent]; rfl) ?_
  rw [hcontent, List.getLast?_eq_some_getLast (List.cons_ne_nil _ _)]
  rfl

/-- **A statement that is ended by a semicolon** spans its tokens and the semicolon. -/
theorem Token.Cover.closed_covers {before run after : List Token} {first t : Token}
    (h : Cover source (before ++ (run ++ t :: after))) (hfirst : first ∈ run.head?)
    (hkind : t.kind = .semicolon) :
    Span.Covers ⟨first.span.source, first.start, t.stop⟩ source
      (concat (Statement.content run) ++ concat (Statement.gap run) ++ ";") := by
  have hsemicolon : t.text = ";" :=
    text_eq_of_spells (h.spells t (by simp)) (by rw [hkind]; rfl)
  have htext : concat (Statement.content run) ++ concat (Statement.gap run) ++ ";" =
      concat (run ++ [t]) := by
    rw [Statement.concat_content_append_gap, concat_append]
    simp [hsemicolon]
  rw [show run ++ t :: after = (run ++ [t]) ++ after by simp] at h
  rw [htext]
  exact h.covers (by rw [List.head?_append, Option.mem_def.mp hfirst]; rfl) (by simp)

/-! ### What a parse has read -/

namespace Parse

/-- **Open blocks, from the inside out, that stand in their places**: each but the root starts where
the text in front of it ends, and so do its finished children, if the last of them is closed. -/
def Anchored (source : Source) (tokens : List Token) : List Block → Prop
  | [] => True
  | b :: outer =>
    (outer ≠ [] →
      b.start = Position.start.advance (outerText outer ++ b.node.raws.before.getD "") ∧
        ∃ stop, b.node.span = some ⟨source.id, b.start, stop⟩) ∧
      (Forest.ofLatestFirst b.children).Located source tokens true
        (outerText outer ++ b.node.opening true) ∧
      Anchored source tokens outer

namespace State

variable {s s' : State} {t : Token} {ts us : List Token}

/-- **All that is read stands in its place**, whether or not the last statement of the current block
is closed. -/
structure Located (source : Source) (tokens : List Token) (s : State) : Prop where
  blocks : Anchored source tokens (s.block :: s.outer)
  current : (Forest.ofLatestFirst s.block.children).Located source tokens s.semicolon
    (outerText s.outer ++ s.block.node.opening true)

theorem start_located : start.Located source tokens :=
  ⟨⟨fun h => absurd rfl h, trivial, trivial⟩, trivial⟩

/-- The text in front of the pending text. -/
theorem outerText_append_text (s : State) (closed : Bool) :
    outerText s.outer ++ s.block.text closed =
      outerText s.outer ++ s.block.node.opening true ++
        (Forest.ofLatestFirst s.block.children).replay closed := by
  rw [Block.text, String.append_assoc]

/-- **One more tree in its place** behind the finished children of a forest. -/
theorem located_snoc {f : Forest Node} {n : Node} {children : Forest Node} {closed : Bool}
    {front : String} (hf : f.Located source tokens (closed || !n.content.isComment) front)
    (hspans : (⟨n, children⟩ : Tree Node).Spans source tokens)
    (hstart : n.span.map Span.start = some (Position.start.advance
      (front ++ f.replay (closed || !n.content.isComment) ++ n.raws.before.getD "")))
    (hchildren : children.Located source tokens (n.raws.semicolon.getD false)
      (front ++ f.replay (closed || !n.content.isComment) ++ n.opening closed)) :
    (f ++ .cons n children .nil).Located source tokens closed front := by
  have hflag : (Forest.cons n children .nil).hasStatement = !n.content.isComment := by
    simp [Forest.hasStatement]
  rw [Forest.located_append, hflag]
  refine ⟨hf, hspans, hstart, ?_, trivial⟩
  simpa only [Forest.hasStatement, Bool.or_false] using hchildren

/-- **A node without a block** is attached in its place.  The children in front of it are known to
stand in theirs if the last of them is closed, or if nothing is known of it but what is read. -/
theorem Located.attach (hs : s.Sound) (h : s.Located source tokens) {n : Node}
    (hspans : (⟨s.placed n, .nil⟩ : Tree Node).Spans source tokens)
    (hstart : n.span.map Span.start = some (Position.start.advance
      (outerText s.outer ++ s.block.text s.semicolon ++ s.pending)))
    (closed : Bool) (hclosed : (closed || !n.content.isComment) = true ∨
      (closed || !n.content.isComment) = s.semicolon) :
    (Forest.ofLatestFirst (s.attach n).block.children).Located source tokens closed
      (outerText s.outer ++ s.block.node.opening true) := by
  have hfront : (Forest.ofLatestFirst s.block.children).Located source tokens
        (closed || !n.content.isComment) (outerText s.outer ++ s.block.node.opening true) ∧
      s.block.text (closed || !n.content.isComment) = s.block.text s.semicolon := by
    rcases hclosed with hflag | hflag <;> rw [hflag]
    · exact ⟨h.blocks.2.1, hs.settled.symm⟩
    · exact ⟨h.current, rfl⟩
  have htext := s.outerText_append_text (closed || !n.content.isComment)
  rw [hfront.2] at htext
  rw [State.attach, Forest.ofLatestFirst_cons]
  refine located_snoc hfront.1 hspans ?_ trivial
  rw [htext] at hstart
  exact hstart

/-- **A comment** stands in its place. -/
theorem comment_located (hcover : Token.Cover source (ts ++ ([t] ++ us))) (hs : s.Sound)
    (h : s.Located source (ts ++ ([t] ++ us))) (htext : s.text = Token.concat ts)
    (hbuffer : s.buffer = []) (hkind : t.kind = .comment) :
    (s.comment t).Located source (ts ++ ([t] ++ us)) := by
  obtain ⟨inner, hinner⟩ : ∃ inner, t.text.toList = '/' :: '*' :: (inner ++ ['*', '/']) := by
    simpa [hkind, Token.Kind.Spells] using hcover.spells t (by simp)
  have hcovers : t.span.Covers source (Token.concat [t]) := hcover.covers rfl rfl
  have hstart : t.start = Position.start.advance (Token.concat ts) := hcover.start_eq rfl
  have hfront : outerText s.outer ++ s.block.text s.semicolon ++ s.pending = Token.concat ts := by
    rw [← htext, State.text, hbuffer]
    simp
  have hplaced {closed : Bool} (hclosed : closed = true ∨ closed = s.semicolon) :
      (Forest.ofLatestFirst (s.comment t).block.children).Located source (ts ++ ([t] ++ us)) closed
        (outerText s.outer ++ s.block.node.opening true) := by
    refine h.attach hs ⟨t.span, Token.concat [t], rfl, hcovers, ?_⟩ ?_ closed
      (by simpa [Content.isComment] using hclosed)
    · have hreplay : Token.concat [t] = Tree.replay true (⟨s.placed
          { content := .comment (CommentParts.ofText t.text).text,
            raws := { left := some (CommentParts.ofText t.text).left,
                      right := some (CommentParts.ofText t.text).right },
            span := some t.span }, .nil⟩ : Tree Node) := by
        rw [Token.concat_cons, Token.concat_nil, String.append_empty]
        exact (CommentParts.ofText_text hinner).symm.trans String.append_empty.symm
      rw [← hreplay]
      exact .whole rfl
    · rw [hfront, ← hstart]
      rfl
  have hsemicolon : (s.comment t).semicolon = s.semicolon := by
    simp [comment, State.attach, Content.isComment]
  refine ⟨⟨h.blocks.1, hplaced (.inl rfl), h.blocks.2.2⟩, ?_⟩
  rw [hsemicolon]
  exact hplaced (.inr rfl)

/-- **A statement without a block** is attached in its place, whatever comes next. -/
theorem Located.attach_statement (hs : s.Sound) (h : s.Located source tokens) {n : Node}
    (hspans : (⟨s.placed n, .nil⟩ : Tree Node).Spans source tokens)
    (hplain : n.content.isPlain = true)
    (hstart : n.span.map Span.start = some (Position.start.advance
      (outerText s.outer ++ s.block.text s.semicolon ++ s.pending)))
    (pending : String) (semicolon : Bool) :
    ({ s.attach n with
        buffer := [], depth := 0, pending := pending, semicolon := semicolon } : State).Located
      source tokens := by
  have hplaced (closed : Bool) := h.attach hs hspans hstart closed
    (.inl (by simp [(Content.of_isPlain hplain).1]))
  exact ⟨⟨h.blocks.1, hplaced true, h.blocks.2.2⟩, hplaced semicolon⟩

/-- **The end of a statement.**  It stands in its place and spans its run, with the semicolon that
ends it, if there is one. -/
theorem completed_located {before run after : List Token} {first : Token} {depth : Nat}
    (hcover : Token.Cover source (before ++ (run ++ after))) (hs : s.Sound)
    (h : s.Located source (before ++ (run ++ after)))
    (hfront : outerText s.outer ++ s.block.text s.semicolon ++ s.pending = Token.concat before)
    (hfirst : first ∈ run.head?) (hrun : IsRun run depth)
    (hends : ∀ t ∈ after.head?, Terminates t depth) {node : Option String → Node}
    (hplain : ∀ gap, (node gap).content.isPlain = true)
    (hclosed : ∀ gap, Layout.faithfulHead id true (node (some gap)) =
      Token.concat (Statement.content run) ++ gap ++ ";") :
    (s.completed first run (after.head?.filter (·.kind == .semicolon)) node).Located source
      (before ++ (run ++ after)) := by
  have hend := hcover.endAt_eq hfirst hrun.depth fun t ht => (hends t ht).continuesStatement
  have hreplay (gap : String) (span : Option Span) :
      Tree.replay true (⟨s.placed { node (some gap) with span := span }, .nil⟩ : Tree Node) =
        Token.concat (Statement.content run) ++ gap ++ ";" :=
    (Tree.replay_of_isPlain (hplain (some gap)) true).trans (hclosed gap)
  have hdone (gap pending text : String) (stop : Position) (semicolon : Bool)
      (hcovers : Span.Covers ⟨first.span.source, first.start, stop⟩ source text)
      (hprints : (node (some gap)).content.PrintsAs after.head? text
        (Token.concat (Statement.content run) ++ gap ++ ";")) :
      ({ s.attach
            { node (some gap) with span := some ⟨first.span.source, first.start, stop⟩ } with
          buffer := [], depth := 0, pending := pending, semicolon := semicolon } : State).Located
        source (before ++ (run ++ after)) := by
    have hspans : (⟨s.placed { node (some gap) with
          span := some ⟨first.span.source, first.start, stop⟩ }, .nil⟩ : Tree Node).Spans source
        (before ++ (run ++ after)) := by
      refine ⟨_, text, rfl, hcovers, ?_⟩
      rw [hend, hreplay]
      exact hprints
    refine h.attach_statement hs hspans (hplain _) ?_ pending semicolon
    rw [hfront, ← hcover.start_eq hfirst]
    rfl
  have hunclosed (hbrace : ∀ t ∈ after.head?, t.kind = .braceClose) :
      (node (some "")).content.PrintsAs after.head? (Token.concat (Statement.content run))
        (Token.concat (Statement.content run) ++ "" ++ ";") := by
    rw [String.append_empty]
    exact .unclosed (hplain _) hbrace
  cases after with
  | nil => exact hdone _ _ _ _ _ (hcover.content_covers hfirst hrun) (hunclosed (by simp))
  | cons t us =>
    rcases hends t rfl with ⟨hkind, -⟩ | hkind
    · have hfilter : (t :: us).head?.filter (·.kind == .semicolon) = some t := by simp [hkind]
      rw [hfilter]
      exact hdone _ _ _ _ _ (hcover.closed_covers hfirst hkind) (.closed (hplain _) rfl hkind)
    · have hfilter : (t :: us).head?.filter (·.kind == .semicolon) = none := by simp [hkind]
      rw [hfilter]
      exact hdone _ _ _ _ _ (hcover.content_covers hfirst hrun) (hunclosed (by simpa using hkind))

/-- **The end of a statement** leaves all in its place. -/
theorem Ends.located {after : List Token} (hcover : Token.Cover source (ts ++ after))
    (hs : s.Sound) (h : s.Located source (ts ++ after)) (htext : s.text = Token.concat ts)
    (hat : At ts s) (hterminates : ∀ t ∈ after.head?, Terminates t s.depth)
    (hends : s.Ends false (after.head?.filter (·.kind == .semicolon)) s') :
    s'.Located source (ts ++ after) := by
  obtain ⟨before, rfl, -⟩ := hat.cut
  have hfront : outerText s.outer ++ s.block.text s.semicolon ++ s.pending =
      Token.concat before := by
    rw [State.text, Token.concat_append] at htext
    exact (String.append_left_inj _).mp htext
  rw [List.append_assoc] at hcover h ⊢
  have hrun := hat.run
  have hplace {first : Token} {others : List Token} {node : Option String → Node}
      (hcut : s.buffer.reverse = first :: others)
      (hplain : ∀ gap, (node gap).content.isPlain = true)
      (hclosed : ∀ gap, Layout.faithfulHead id true (node (some gap)) =
        Token.concat (Statement.content (first :: others)) ++ gap ++ ";") :
      (s.completed first (first :: others) (after.head?.filter (·.kind == .semicolon))
        node).Located source (before ++ (s.buffer.reverse ++ after)) := by
    rw [hcut] at hcover h hrun ⊢
    exact completed_located hcover hs h hfront rfl hrun hterminates hplain hclosed
  cases hends with
  | @atRule first others hcut hkind =>
    have hspells : first.kind.Spells first.text.toList :=
      hs.spells first (List.mem_reverse.mp (by rw [hcut]; exact List.mem_cons_self))
    refine hplace hcut (fun _ => rfl) fun gap => ?_
    simpa [Layout.semicolonIf] using Statement.faithfulHead_atRule others hkind hspells gap true
  | declaration hcut hkind hparts =>
    refine hplace hcut (fun _ => rfl) fun gap => ?_
    simpa [String.append_assoc] using Statement.faithfulHead_declaration hparts gap true
  | kept hlenient => cases hlenient

/-- Each block but the root is written with braces. -/
theorem Shaped.opensBlock (hs : s.Shaped) (houter : s.outer ≠ []) :
    s.block.node.content.opensBlock = true := by
  obtain ⟨parent, outer, hcons⟩ := List.exists_cons_of_ne_nil houter
  have hnested := hs.nested
  rw [hcons] at hnested
  exact hnested.1

/-- From the gap in front of the current block on, the text of a state is that of the closed
block. -/
theorem append_replay_closedNode (hopens : s.block.node.content.opensBlock = true)
    (hbuffer : s.buffer = []) (stop : Position) :
    outerText s.outer ++ s.block.node.raws.before.getD "" ++
      Tree.replay true ⟨s.closedNode stop, .ofLatestFirst s.block.children⟩ = s.text ++ "\x7d" := by
  have hreplay := replay_closedNode hopens stop true
  rw [Forest.replay_cons] at hreplay
  simp only [Forest.hasStatement, Bool.or_false, Forest.replay, String.append_empty] at hreplay
  rw [String.append_assoc, State.text, hbuffer]
  simp only [List.reverse_nil, Token.concat_nil, String.append_empty, String.append_assoc]
  simp only [String.append_assoc] at hreplay
  rw [← hreplay]
  rfl

/-- **A block that is closed** spans its text. -/
theorem closedNode_spans (hopens : s.block.node.content.opensBlock = true)
    (hbuffer : s.buffer = []) (hstart : s.block.start =
      Position.start.advance (outerText s.outer ++ s.block.node.raws.before.getD ""))
    {stop : Position} (hstop : stop = Position.start.advance (s.text ++ "\x7d"))
    (hclosed : (s.closedNode stop).span = some ⟨source.id, s.block.start, stop⟩) {behind : String}
    (htext : source.text = s.text ++ "\x7d" ++ behind) :
    Tree.Spans source tokens ⟨s.closedNode stop, .ofLatestFirst s.block.children⟩ := by
  have hwhole := append_replay_closedNode hopens hbuffer stop
  refine ⟨_, _, hclosed, ⟨outerText s.outer ++ s.block.node.raws.before.getD "", behind, ?_, ?_⟩,
    .whole ?_⟩
  · rw [hwhole, htext]
  · rw [hwhole, ← hstop, hstart]
  · rw [closedNode_content]
    cases hcontent : s.block.node.content <;> simp_all [Content.isPlain, Content.opensBlock]

/-- **A block that is closed** stands in its place. -/
theorem close_located (hs : s.Shaped) (h : s.Located source tokens) (hbuffer : s.buffer = [])
    (houter : s.outer ≠ []) {stop : Position}
    (hstop : stop = Position.start.advance (s.text ++ "\x7d")) {behind : String}
    (htext : source.text = s.text ++ "\x7d" ++ behind) :
    (s.close stop).Located source tokens := by
  have hopens := hs.opensBlock houter
  obtain ⟨⟨hanchor, -, hparents⟩, hcurrent⟩ := h
  obtain ⟨hstart, inner, hspan⟩ := hanchor houter
  have hclosed : (s.closedNode stop).span = some ⟨source.id, s.block.start, stop⟩ := by
    simp [closedNode, ended, hspan]
  have hspans : Tree.Spans source tokens ⟨s.closedNode stop, .ofLatestFirst s.block.children⟩ :=
    closedNode_spans hopens hbuffer hstart hstop hclosed htext
  obtain ⟨parent, outer, hcons⟩ := List.exists_cons_of_ne_nil houter
  rw [hcons] at hparents hcurrent hstart
  obtain ⟨hparent, hinner, houters⟩ := hparents
  rw [close_eq hcons]
  have hplaced (closed : Bool) : (Forest.ofLatestFirst parent.children ++
      .cons (s.closedNode stop) (.ofLatestFirst s.block.children) .nil).Located source tokens closed
        (outerText outer ++ parent.node.opening true) := by
    have hflag : (closed || !(s.closedNode stop).content.isComment) = true := by
      simp [Content.isComment_of_opensBlock hopens]
    have hopening : (s.closedNode stop).opening closed = s.block.node.opening true :=
      opening_of_opensBlock (n := s.closedNode stop) hopens closed true
    have hfront : outerText outer ++ parent.node.opening true ++
        (Forest.ofLatestFirst parent.children).replay true = outerText (parent :: outer) := by
      rw [outerText, Block.text, String.append_assoc]
    refine located_snoc (by rwa [hflag]) hspans ?_ ?_
    · rw [hflag, hfront, hclosed, Option.map_some, hstart]
      rfl
    · rw [hflag, hfront, hopening]
      exact hcurrent
  rw [← Forest.ofLatestFirst_cons ⟨s.closedNode stop, _⟩] at hplaced
  exact ⟨⟨hparent, hplaced true, houters⟩, hplaced false⟩

/-- **The head of a block** stands in its place. -/
theorem openBlock_located (hcover : Token.Cover source (ts ++ ([t] ++ us))) (hs : s.Sound)
    (h : s.Located source (ts ++ ([t] ++ us))) (htext : s.text = Token.concat ts) (hat : At ts s) :
    (s.openBlock t).Located source (ts ++ ([t] ++ us)) := by
  obtain ⟨before, hcut, -⟩ := hat.cut
  have hfront : outerText (s.block :: s.outer) ++ s.pending = Token.concat before := by
    rw [hcut, State.text, Token.concat_append, hs.settled] at htext
    exact (String.append_left_inj _).mp htext
  have hsource : t.span.source = source.id := hcover.inRow.source_eq (by simp)
  have hstart : (s.buffer.reverse.head?.getD t).start =
      Position.start.advance (Token.concat before) := by
    cases hrun : s.buffer.reverse with
    | nil =>
      rw [hrun, List.append_nil] at hcut
      rw [hcut] at hcover
      exact Token.Cover.start_eq (show Token.Cover source (before ++ ([t] ++ us)) from hcover) rfl
    | cons first others =>
      rw [hrun] at hcut
      rw [hcut, List.append_assoc] at hcover
      exact hcover.start_eq rfl
  rw [openBlock_eq_block]
  refine ⟨⟨fun _ => ⟨?_, t.stop, ?_⟩, trivial, h.blocks⟩, trivial⟩
  · rw [hstart, ← hfront]
    rfl
  · rw [← hsource]
    rfl

/-- **One token** leaves all in its place. -/
theorem Steps.located (hcover : Token.Cover source (ts ++ ([t] ++ us))) (hs : s.Sound)
    (h : s.Located source (ts ++ ([t] ++ us))) (htext : s.text = Token.concat ts) (hat : At ts s)
    (hstep : s.Steps false t s') : s'.Located source (ts ++ ([t] ++ us)) := by
  have hclose {s : State} (hs : s.Shaped) (h : s.Located source (ts ++ ([t] ++ us)))
      (htext : s.text = Token.concat ts) (hbuffer : s.buffer = []) (houter : s.outer ≠ [])
      (hkind : t.kind = .braceClose) : (s.close t.stop).Located source (ts ++ ([t] ++ us)) := by
    have hbrace : t.text = "\x7d" :=
      Token.text_eq_of_spells (hcover.spells t (by simp)) (by rw [hkind]; rfl)
    have hstop : t.stop = Position.start.advance (s.text ++ "\x7d") := by
      have hrow := hcover.inRow
      rw [← List.append_assoc, Token.InRow.append_iff] at hrow
      rw [hrow.1.stop_eq (by simp), htext, Token.concat_append, Token.concat_cons, hbrace]
      rfl
    have hsource : source.text = s.text ++ "\x7d" ++ Token.concat us := by
      rw [← hcover.text, htext, Token.concat_append, Token.concat_append, Token.concat_cons,
        hbrace]
      simp [String.append_assoc]
    exact close_located hs h hbuffer houter hstop hsource
  cases hstep with
  | gap => exact ⟨h.blocks, h.current⟩
  | first => exact ⟨h.blocks, h.current⟩
  | more => exact ⟨h.blocks, h.current⟩
  | comment hbuffer hkind => exact comment_located hcover hs h htext hbuffer hkind
  | openBlock => exact openBlock_located hcover hs h htext hat
  | close hbuffer hkind houter => exact hclose hs.toShaped h htext hbuffer houter hkind
  | stray hlenient => cases hlenient
  | semicolon _ hkind hdepth hends =>
    have hfilter : ([t] ++ us).head?.filter (·.kind == .semicolon) = some t := by simp [hkind]
    exact Ends.located hcover hs h htext hat (by simpa using .inl ⟨hkind, hdepth⟩)
      (hfilter ▸ hends)
  | @endClose s₁ _ hkind houter hends =>
    have hfilter : ([t] ++ us).head?.filter (·.kind == .semicolon) = none := by simp [hkind]
    have hlocated : s₁.Located source (ts ++ ([t] ++ us)) :=
      Ends.located hcover hs h htext hat (by simpa using .inr hkind) (hfilter ▸ hends)
    have htext₁ : s₁.text = Token.concat ts := by
      rw [hends.text hs (by simp), ← htext]
      simp
    exact hclose (hends.shaped hs) hlocated htext₁ hends.frame.1 (by rwa [hends.frame.2.2.1]) hkind
  | endStray hlenient => cases hlenient

/-- **A run** leaves all in its place. -/
theorem Runs.located (hcover : Token.Cover source (ts ++ us)) (h : Runs false start ts s) :
    s.Located source (ts ++ us) ∧ s.Sound ∧ s.text = Token.concat ts := by
  induction ts using List.reverseRecOn generalizing s us with
  | nil =>
    obtain rfl := runs_nil.mp h
    exact ⟨start_located, start_sound, rfl⟩
  | append_singleton ts t ih =>
    obtain ⟨s₁, hrun, hstep⟩ := runs_snoc.mp h
    rw [List.append_assoc] at hcover ⊢
    obtain ⟨hlocated, hs, htext⟩ := ih hcover hrun
    obtain ⟨htext', hs'⟩ := Steps.text hs (hcover.spells t (by simp)) (by simp) hstep
    refine ⟨hstep.located hcover hs hlocated htext hrun.at, hs', ?_⟩
    rw [htext', htext, Token.concat_append, Token.concat_cons, Token.concat_nil,
      String.append_empty]

end State

end Parse

/-- **All nodes of a strict parse** stand in their places. -/
theorem located_of_parse {t : Tree Node} (h : parse source false = .ok t) :
    t.children.Located source (tokenize source false).tokens
        (t.value.raws.semicolon.getD false) "" ∧ t.children.Recorded := by
  obtain ⟨hfailure, s, hrun, hfinish⟩ := parse_eq_ok_iff.mp h
  have hcover := tokenize_cover hfailure
  rw [← List.append_nil (tokenize source false).tokens] at hcover
  obtain ⟨hlocated, hs, htext⟩ := hrun.located hcover
  obtain ⟨s₁, hlast, hclosed, rfl⟩ := Parse.State.finish_eq_ok_iff.mp hfinish
  obtain ⟨-, hshaped, -, houter⟩ := hlast.text hs
  have hlocated₁ : s₁.Located source (tokenize source false).tokens := by
    rw [List.append_nil] at hlocated
    cases hlast with
    | nothing => exact hlocated
    | statement _ hends =>
      rw [← List.append_nil (tokenize source false).tokens] at hlocated ⊢
      exact Parse.State.Ends.located hcover hs hlocated htext hrun.at (by simp) hends
  have hnil : s₁.outer = [] := by simpa using hclosed
  have hroot : s₁.block.node = { content := .root } := by
    simpa [hnil, Parse.Nested] using hshaped.nested
  have hall : s₁.closeAll source.endPosition = s₁ := by
    rw [Parse.State.closeAll, hnil]
    rfl
  have hcurrent := hlocated₁.current
  rw [hnil, hroot] at hcurrent
  rw [hall]
  exact ⟨hcurrent, hshaped.recorded s₁.block List.mem_cons_self⟩

/-! ### Nodes under their handles -/

/-- Recorded at every depth. -/
theorem Forest.Recorded.subtrees {f : Forest Node} (h : f.Recorded) {t : Tree Node}
    (ht : t ∈ f.subtrees) : t.value.Recorded ∧ t.children.Recorded := by
  induction f with
  | nil => cases ht
  | cons n children next ihChildren ihNext =>
    obtain ⟨hn, hchildren, hnext⟩ := recorded_cons.mp h
    rcases List.mem_cons.mp ht with rfl | ht
    · exact ⟨hn, hchildren⟩
    · rcases List.mem_append.mp ht with ht | ht
      · exact ihChildren hchildren ht
      · exact ihNext hnext ht

/-- What is found is there. -/
theorem Forest.mem_subtrees_of_find? {f : Forest Entry} {h : Handle} {t : Tree Entry}
    (hfind : f.find? h = some t) : t ∈ f.subtrees := by
  induction f with
  | nil => cases hfind
  | cons e children next ihChildren ihNext =>
    rw [find?] at hfind
    split at hfind
    · cases hfind
      exact List.mem_cons_self
    · refine List.mem_cons_of_mem _ (List.mem_append.mpr ?_)
      split at hfind
      · next hchildren =>
        cases hfind
        exact .inl (ihChildren hchildren)
      · exact .inr (ihNext hfind)

/-- **Every handle but the root's** names a tree below the root. -/
theorem Sheet.mem_subtrees_of_tree? {t u : Tree Node} {h : Handle} (hroot : h ≠ root)
    (hu : (ofTree t).tree? h = some u) : u ∈ t.children.subtrees := by
  obtain ⟨e, hfind, rfl⟩ := Option.map_eq_some_iff.mp hu
  have hmem : e ∈ (t.children.label 1).subtrees := by
    rw [Sheet.find?, ofTree, Forest.label, Forest.find?, if_neg hroot.symm] at hfind
    split at hfind
    · next hchildren =>
      cases hfind
      exact Forest.mem_subtrees_of_find? hchildren
    · cases hfind
  rw [← Forest.map_node_label 1 t.children, Forest.subtrees_map]
  exact List.mem_map_of_mem hmem

/-! ### Main statement -/

/-- **The span of a node is what it prints as.**  Every node of a strict parse but the root has a
span, and there the source has what the node prints as, up to the semicolon of a statement that was
ended by a closing brace or by the end of the source. -/
theorem printAlone_eq_slice {t u : Tree Node} {h : Handle} (hparse : parse source false = .ok t)
    (hroot : h ≠ Sheet.root) (hu : (Sheet.ofTree t).tree? h = some u) :
    ∃ span text, u.value.span = some span ∧
      source.slice? span.source span.start.offset span.stop.offset = some text ∧
        u.value.content.PrintsAs (Statement.endAt (tokenize source false).tokens span.start) text
          (u.printAlone (Style.layout {}) ((Sheet.ofTree t).depth h)) := by
  have hmem := Sheet.mem_subtrees_of_tree? hroot hu
  obtain ⟨hlocated, hrecorded⟩ := located_of_parse hparse
  obtain ⟨⟨-, hafter⟩, hchildren⟩ := hrecorded.subtrees hmem
  obtain ⟨span, text, hspan, hcovers, hprints⟩ := hlocated.spans hmem
  refine ⟨span, text, hspan, hcovers.slice?_eq, ?_⟩
  rw [Style.layout_default, Tree.printAlone_eq_replay hchildren hafter]
  exact hprints

/-- The declaration `e:f` is ended by a brace. -/
theorem printAlone_eq_slice_busySheet :
    ∃ t u, parse busySheet false = .ok t ∧ (4 : Handle) ≠ Sheet.root ∧
      (Sheet.ofTree t).tree? 4 = some u ∧ u.printAlone (Style.layout {}) 2 = "e:f;" ∧
        ∃ span text, u.value.span = some span ∧
          busySheet.slice? span.source span.start.offset span.stop.offset = some text ∧
            u.value.content.PrintsAs
              (Statement.endAt (tokenize busySheet false).tokens span.start) text
              (u.printAlone (Style.layout {}) ((Sheet.ofTree t).depth 4)) := by
  have hrun : (parse busySheet false).toOption.any (fun t =>
      ((Sheet.ofTree t).tree? 4).any fun u =>
        u.printAlone (Style.layout {}) 2 == "e:f;") = true := by
    decide +kernel
  obtain ⟨t, ht, hrun⟩ := exists_ok_of_any hrun
  obtain ⟨u, hu, hprint⟩ := (Option.any_eq_true _ _).mp hrun
  have hroot : (4 : Handle) ≠ Sheet.root := by decide
  exact ⟨t, u, ht, hroot, hu, beq_iff_eq.mp hprint, printAlone_eq_slice ht hroot hu⟩

end LosslessCss
