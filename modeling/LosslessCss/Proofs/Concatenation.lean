import LosslessCss.Proofs.RoundTrip
import LosslessCss.Proofs.Shifting
import LosslessCss.Proofs.Violations

/-!
# Parsing one text behind another

A text that a strict parse accepts and that ends with a closing brace can be put in front of any
other text.  The whole is accepted exactly if the other text is.  Then its nodes are those of the
one followed by those of the other, and otherwise the error is that of the other text.  All that
changes is where the nodes and the error of the other text stand (`parse_append`).

Behind the brace the parser has collected nothing, keeps no text, and has only the root open, as at
its start.  The one thing that it has in addition are the finished children of the root.  So the
rest of the parse goes on like a parse of the other text alone, and every step has the same outcome
in both, a state or an error (`Parse.State.Continues.step`).

## Main Definitions

* `Node.shift`, `ParseError.shift` : moved back by an extent
* `Parse.Alike` : two results that are the same but for places and what has been read before
* `Parse.State.Continues` : a state like another one, but further back and behind finished trees

## Main Statements

* `Parse.State.Continues.step`, `Parse.State.Continues.foldlM`, `Parse.State.Continues.finish`
* `parse_append`
-/

namespace LosslessCss

/-! ### Moving nodes and errors back -/

/-- A node moved back by an extent. -/
def Node.shift (e : Position) (n : Node) : Node := { n with span := n.span.map (Span.shift e) }

/-- A violation moved back by an extent. -/
def ParseError.shift (e : Position) : ParseError → ParseError
  | lexical err => lexical (err.shift e)
  | unexpectedCloseBrace p => unexpectedCloseBrace (e.shift p)
  | unclosedBlock p => unclosedBlock (e.shift p)
  | missingColon text p => missingColon text (e.shift p)
  | missingProperty p => missingProperty (e.shift p)

/-- **A tree read behind others**: its nodes are moved back and follow the others, and its root
spans all of them. -/
def Tree.behind (e : Position) (first : Forest Node) (whole : Span) (t : Tree Node) :
    Tree Node where
  value := { t.value with span := some whole }
  children := first ++ t.children.map (Node.shift e)

theorem Forest.ofLatestFirst_map {α β : Type} (f : α → β) (ts : List (Tree α)) :
    ofLatestFirst (ts.map (Tree.map f)) = (ofLatestFirst ts).map f := by
  induction ts with
  | nil => rfl
  | cons t ts ih => simp [ih, Tree.map, map]

theorem Forest.ofLatestFirst_append {α : Type} (ts us : List (Tree α)) :
    ofLatestFirst (ts ++ us) = ofLatestFirst us ++ ofLatestFirst ts := by
  induction ts with
  | nil => simp
  | cons t ts ih => simp [ih, append_assoc]

namespace Statement

variable {e : Position}

/-- The head of a block does not depend on places. -/
theorem block_map_shift (run : List Token) : block (run.map (Token.shift e)) = block run := by
  have hhead := AtRuleHead.ofTokens_congr (Token.map_lexeme_shift (e := e) (content run))
  simp only [block, content_map_shift, gap_map_shift, Token.concat_map_shift, hhead,
    List.head?_map, Option.any_map]
  rfl

end Statement

namespace Parse

variable {e : Position}

/-! ### Results that are alike -/

/-- **Two results are alike** if both are errors and one is the other moved back, or if neither is
and their values are related. -/
inductive Alike {α β : Type} (e : Position) (R : α → β → Prop) :
    Except ParseError α → Except ParseError β → Prop
  | ok {a : α} {b : β} (h : R a b) : Alike e R (.ok a) (.ok b)
  | error (err : ParseError) : Alike e R (.error err) (.error (err.shift e))

/-- What goes on alike from related values goes on alike from results that are alike. -/
theorem Alike.bind {α β γ δ : Type} {R : α → β → Prop} {Q : γ → δ → Prop}
    {x : Except ParseError α} {y : Except ParseError β} {f : α → Except ParseError γ}
    {g : β → Except ParseError δ} (h : Alike e R x y)
    (hrest : ∀ a b, R a b → Alike e Q (f a) (g b)) :
    Alike e Q (x >>= f) (y >>= g) := by
  cases h with
  | ok h => exact hrest _ _ h
  | error err => exact .error err

/-! ### Blocks and states -/

/-- A block moved back by an extent. -/
def Block.shift (e : Position) (b : Block) : Block :=
  ⟨b.node.shift e, e.shift b.start, b.children.map (Tree.map (Node.shift e))⟩

/-- **Blocks moved back**, where the root has the trees `first` in front of its other children.  The
root starts where it did. -/
inductive Behind (e : Position) (first : List (Tree Node)) : List Block → List Block → Prop
  | root {b b' : Block} (hnode : b'.node = b.node.shift e)
      (hchildren : b'.children = b.children.map (Tree.map (Node.shift e)) ++ first) :
      Behind e first [b] [b']
  | block {b : Block} {outer outer' : List Block} (houter : Behind e first outer outer') :
      Behind e first (b :: outer) (b.shift e :: outer')

variable {first : List (Tree Node)} {b b' : Block} {outer outer' : List Block}

namespace Behind

theorem ne_nil (h : Behind e first outer outer') : outer ≠ [] ∧ outer' ≠ [] := by
  cases h <;> simp

theorem node (h : Behind e first (b :: outer) (b' :: outer')) : b'.node = b.node.shift e := by
  cases h with
  | root hnode => exact hnode
  | block => rfl

theorem eq_nil_iff (h : Behind e first (b :: outer) (b' :: outer')) : outer' = [] ↔ outer = [] := by
  cases h with
  | root => simp
  | block houter => simp [houter.ne_nil]

/-- All blocks but the root are moved back. -/
theorem start (h : Behind e first (b :: outer) (b' :: outer')) (houter : outer ≠ []) :
    b'.start = e.shift b.start := by
  cases h with
  | root => exact absurd rfl houter
  | block => rfl

/-- One more tree in the innermost block. -/
theorem cons (h : Behind e first (b :: outer) (b' :: outer')) (t : Tree Node) :
    Behind e first ({ b with children := t :: b.children } :: outer)
      ({ b' with children := t.map (Node.shift e) :: b'.children } :: outer') := by
  cases h with
  | root hnode hchildren => exact .root hnode (by simp [hchildren])
  | block houter => exact .block (b := { b with children := t :: b.children }) houter

end Behind

namespace State

/-- **A state goes on like another one**: it has the same collected and kept, but its tokens and
blocks are moved back, and the root has the trees `first` in front. -/
structure Continues (e : Position) (first : List (Tree Node)) (s s' : State) : Prop where
  blocks : Behind e first (s.block :: s.outer) (s'.block :: s'.outer)
  buffer : s'.buffer = s.buffer.map (Token.shift e)
  depth : s'.depth = s.depth
  pending : s'.pending = s.pending
  semicolon : s'.semicolon = s.semicolon

variable {s s' : State} {t : Token} {ts : List Token} {lenient : Bool}

namespace Continues

theorem reverse_buffer (h : Continues e first s s') :
    s'.buffer.reverse = s.buffer.reverse.map (Token.shift e) := by
  rw [h.buffer, List.map_reverse]

theorem keep (h : Continues e first s s') (x : String) :
    Continues e first (s.keep x) (s'.keep x) where
  blocks := h.blocks
  buffer := h.buffer
  depth := h.depth
  pending := congrArg (· ++ x) h.pending
  semicolon := h.semicolon

theorem push (h : Continues e first s s') (t : Token) :
    Continues e first (s.push t) (s'.push (t.shift e)) where
  blocks := h.blocks
  buffer := by simp [State.push, h.buffer]
  depth := by simp [State.push, h.depth]
  pending := h.pending
  semicolon := h.semicolon

theorem placed (h : Continues e first s s') (n : Node) :
    s'.placed (n.shift e) = (s.placed n).shift e := by
  simp [State.placed, Node.shift, h.pending]

/-- **A node is attached** in both. -/
theorem attach (h : Continues e first s s') (n : Node) :
    Continues e first (s.attach n) (s'.attach (n.shift e)) where
  blocks := by
    have hblocks := h.blocks.cons ⟨s.placed n, .nil⟩
    rw [Tree.map, ← h.placed] at hblocks
    exact hblocks
  buffer := h.buffer
  depth := h.depth
  pending := rfl
  semicolon := by simp [State.attach, Node.shift, h.semicolon]

theorem comment (h : Continues e first s s') (t : Token) :
    Continues e first (s.comment t) (s'.comment (t.shift e)) :=
  h.attach _

/-- **A block is opened** in both. -/
theorem openBlock (h : Continues e first s s') (t : Token) :
    Continues e first (s.openBlock t) (s'.openBlock (t.shift e)) := by
  have hstart : ((s.buffer.reverse.map (Token.shift e)).head?.getD (t.shift e)) =
      (s.buffer.reverse.head?.getD t).shift e := by
    cases s.buffer.reverse <;> rfl
  rw [openBlock_eq_block, openBlock_eq_block, h.reverse_buffer, Statement.block_map_shift, hstart]
  have hblocks := Behind.block h.blocks (b := ⟨s.placed { Statement.block s.buffer.reverse with
    span := some ⟨t.span.source, (s.buffer.reverse.head?.getD t).start, t.stop⟩ },
      (s.buffer.reverse.head?.getD t).start, []⟩)
  rw [Block.shift, ← h.placed] at hblocks
  exact ⟨hblocks, rfl, rfl, rfl, rfl⟩

/-- **A block is closed** in both. -/
theorem close (h : Continues e first s s') (houter : s.outer ≠ []) (stop : Position) :
    Continues e first (s.close stop) (s'.close (e.shift stop)) := by
  obtain ⟨hblocks, hbuffer, hdepth, hpending, hsemicolon⟩ := h
  obtain ⟨parent, outer, hcons⟩ := List.exists_cons_of_ne_nil houter
  rw [hcons] at hblocks
  generalize hblock' : s'.block = b' at hblocks
  generalize houter' : s'.outer = outer' at hblocks
  cases hblocks with
  | block hrest =>
    obtain ⟨parent', outer'', rfl⟩ := List.exists_cons_of_ne_nil hrest.ne_nil.2
    have hclosed : s'.closedNode (e.shift stop) = (s.closedNode stop).shift e := by
      simp only [closedNode, ended, Node.shift, hblock', Block.shift, hpending, hsemicolon,
        Option.map_map]
      rfl
    have hchildren : Forest.ofLatestFirst s'.block.children =
        (Forest.ofLatestFirst s.block.children).map (Node.shift e) := by
      rw [hblock', ← Forest.ofLatestFirst_map]
      rfl
    have hnext := hrest.cons ⟨s.closedNode stop, .ofLatestFirst s.block.children⟩
    rw [Tree.map, ← hclosed, ← hchildren] at hnext
    rw [close_eq hcons, close_eq houter']
    exact ⟨hnext, hbuffer, hdepth, rfl, rfl⟩

/-- **A statement is completed** in both: all but its span does not depend on places. -/
theorem completed (h : Continues e first s s') (start : Token) (run : List Token)
    (semicolon? : Option Token) (node : Option String → Node) :
    Continues e first (s.completed start run semicolon? node)
      (s'.completed (start.shift e) (run.map (Token.shift e)) (semicolon?.map (Token.shift e))
        node) := by
  have hgap : Token.concat (Statement.gap (run.map (Token.shift e))) =
      Token.concat (Statement.gap run) := by
    rw [Statement.gap_map_shift, Token.concat_map_shift]
  have hlast : (Statement.content (run.map (Token.shift e))).getLast?.getD (start.shift e) =
      ((Statement.content run).getLast?.getD start).shift e := by
    rw [Statement.content_map_shift, List.getLast?_map, Option.getD_map]
  have hstop (last : Token) : (semicolon?.map (Token.shift e)).getD (last.shift e) =
      (semicolon?.getD last).shift e := by
    rw [Option.getD_map]
  have hattached := fun gap stop => h.attach { node gap with
    span := some ⟨start.span.source, start.start, stop⟩ }
  simp only [State.completed, hgap, hlast, hstop, Option.isSome_map]
  exact ⟨(hattached _ _).blocks, rfl, rfl, rfl, rfl⟩

/-- **The end of a statement** is the same in both, or the same error. -/
theorem endStatement (h : Continues e first s s') (lenient : Bool) (semicolon? : Option Token) :
    Alike e (Continues e first) (s.endStatement lenient semicolon?)
      (s'.endStatement lenient (semicolon?.map (Token.shift e))) := by
  unfold State.endStatement
  rw [h.reverse_buffer]
  cases s.buffer.reverse with
  | nil => exact .ok h
  | cons start others =>
    have hcontent := Statement.content_map_shift (e := e) (start :: others)
    have hhead := AtRuleHead.ofTokens_congr
      (Token.map_lexeme_shift (e := e) (Statement.content (start :: others)))
    have hparts := DeclarationParts.ofTokens_congr
      (Token.map_lexeme_shift (e := e) (Statement.content (start :: others)))
    rw [← hcontent] at hhead hparts
    rw [List.map_cons] at hhead hparts hcontent ⊢
    dsimp only
    rw [Token.shift_kind, hhead, hparts]
    split
    · exact .ok (h.completed start (start :: others) semicolon? _)
    · split
      · exact .ok (h.completed start (start :: others) semicolon? _)
      · next fault hfault =>
        have hrun : Token.concat (start.shift e :: others.map (Token.shift e)) =
            Token.concat (start :: others) := Token.concat_map_shift (start :: others)
        have hsemicolon : (semicolon?.map (Token.shift e)).map Token.text =
            semicolon?.map Token.text := by
          rw [Option.map_map]
          rfl
        rw [hrun, hsemicolon, hcontent, Token.concat_map_shift]
        split
        · exact .ok ((⟨h.blocks, rfl, rfl, h.pending, h.semicolon⟩ : Continues e first
            { s with buffer := [], depth := 0 } { s' with buffer := [], depth := 0 }).keep _)
        · cases fault with
          | missingColon => exact .error (.missingColon _ start.start)
          | missingProperty => exact .error (.missingProperty start.start)

/-- **A closing brace** has the same outcome in both. -/
theorem closeBlock (h : Continues e first s s') (lenient : Bool) (t : Token) :
    Alike e (Continues e first) (s.closeBlock lenient t) (s'.closeBlock lenient (t.shift e)) := by
  have hempty : s'.outer.isEmpty = s.outer.isEmpty := by
    rw [Bool.eq_iff_iff, List.isEmpty_iff, List.isEmpty_iff]
    exact h.blocks.eq_nil_iff
  unfold State.closeBlock
  rw [hempty]
  split
  · split
    · exact .ok (h.keep t.text)
    · exact .error (.unexpectedCloseBrace t.start)
  · next houter => exact .ok (h.close (by simpa using houter) t.stop)

/-- **One token** has the same outcome in both. -/
theorem step (h : Continues e first s s') (lenient : Bool) (t : Token) :
    Alike e (Continues e first) (s.step lenient t) (s'.step lenient (t.shift e)) := by
  have hempty : s'.buffer.isEmpty = s.buffer.isEmpty := by rw [h.buffer, List.isEmpty_map]
  unfold State.step
  rw [hempty, Token.shift_kind, Token.shift_text, h.depth]
  split
  · split
    · exact .ok (h.keep t.text)
    · exact .ok (h.keep t.text)
    · exact .ok (h.comment t)
    · exact .ok (h.openBlock t)
    · exact h.closeBlock lenient t
    · exact .ok (h.push t)
  · split
    · split
      · exact h.endStatement lenient (some t)
      · exact .ok (h.push t)
    · exact .ok (h.openBlock t)
    · exact (h.endStatement lenient none).bind fun _ _ h => h.closeBlock lenient t
    · exact .ok (h.push t)

/-- **Tokens** lead to the same in both. -/
theorem foldlM (h : Continues e first s s') (lenient : Bool) (ts : List Token) :
    Alike e (Continues e first) (ts.foldlM (State.step lenient) s)
      ((ts.map (Token.shift e)).foldlM (State.step lenient) s') := by
  induction ts generalizing s s' with
  | nil => exact .ok h
  | cons t ts ih =>
    rw [List.map_cons, List.foldlM_cons, List.foldlM_cons]
    exact (h.step lenient t).bind fun _ _ h => ih h

/-- With only the root open the trees are alike. -/
theorem tree (h : Continues e first s s') (houter : s.outer = []) (source source' : Source) :
    s'.tree source' = (s.tree source).behind e (.ofLatestFirst first)
      ⟨source'.id, .start, source'.endPosition⟩ := by
  obtain ⟨hblocks, -, -, hpending, hsemicolon⟩ := h
  have hnode := hblocks.node
  rw [houter] at hblocks
  generalize hblock' : s'.block = b' at hblocks hnode
  generalize s'.outer = outer' at hblocks
  cases hblocks with
  | root _ hchildren =>
    simp only [State.tree, ended, hblock', hnode, Node.shift, hpending, hsemicolon, hchildren,
      Tree.behind, Forest.ofLatestFirst_append, Forest.ofLatestFirst_map]
  | block hnone => exact absurd rfl hnone.ne_nil.1

/-- **The end of the source** has the same outcome in both. -/
theorem finish (h : Continues e first s s') (source source' : Source) :
    Alike e (fun u u' => u' = u.behind e (.ofLatestFirst first)
        ⟨source'.id, .start, source'.endPosition⟩)
      (s.finish source false) (s'.finish source' false) := by
  have hlast : Alike e (Continues e first)
      (if s.buffer.isEmpty then .ok s else s.endStatement false none)
      (if s'.buffer.isEmpty then .ok s' else s'.endStatement false none) := by
    rw [h.buffer, List.isEmpty_map]
    split
    · exact .ok h
    · exact h.endStatement false none
  rw [finish_eq_bind, finish_eq_bind]
  refine hlast.bind fun s s' h => ?_
  by_cases houter : s.outer = []
  · have houter' : s'.outer = [] := h.blocks.eq_nil_iff.mpr houter
    have hclose (s : State) (source : Source) (hs : s.outer = []) :
        s.closeAll source.endPosition = s := by
      rw [closeAll, hs]
      rfl
    rw [if_neg (by simp [houter]), if_neg (by simp [houter']), hclose s source houter,
      hclose s' source' houter']
    exact .ok (h.tree houter source source')
  · have houter' : s'.outer ≠ [] := fun hnil => houter (h.blocks.eq_nil_iff.mp hnil)
    rw [if_pos (by simpa using houter), if_pos (by simpa using houter'), h.blocks.start houter]
    exact .error (.unclosedBlock s.block.start)

end Continues

/-! ### Behind a closing brace -/

/-- A closing brace leaves no pending text and no semicolon. -/
theorem Steps.pending_of_braceClose (h : s.Steps false t s') (hkind : t.kind = .braceClose) :
    s'.pending = "" ∧ s'.semicolon = false := by
  have hclose {s : State} (houter : s.outer ≠ []) :
      (s.close t.stop).pending = "" ∧ (s.close t.stop).semicolon = false := by
    obtain ⟨parent, outer, hcons⟩ := List.exists_cons_of_ne_nil houter
    rw [close_eq hcons]
    exact ⟨rfl, rfl⟩
  cases h with
  | close _ _ houter => exact hclose houter
  | endClose _ _ houter hends => exact hclose (by rwa [hends.frame.2.2.1])
  | _ => simp_all [Token.Kind.startsStatement, Token.Kind.continuesStatement]

/-- **Behind a closing brace** a strict parse that has only the root open is as at its start, but
for the children of the root. -/
theorem Runs.continues_start {source : Source} {u : Tree Node} {brace : Token}
    (h : Runs false start ts s) (hspells : ∀ t ∈ ts, t.kind.Spells t.text.toList)
    (hbrace : brace ∈ ts.getLast?) (hkind : brace.kind = .braceClose)
    (hfinish : s.finish source false = .ok u) :
    Continues e s.block.children start s ∧ u.children = .ofLatestFirst s.block.children := by
  obtain ⟨us, rfl⟩ := List.getLast?_eq_some_iff.mp hbrace
  obtain ⟨s₁, hrun, hstep⟩ := runs_snoc.mp h
  have hidle : s.Idle := hstep.idle hrun.at.depth_eq_zero
    (.inl (Token.Kind.continuesStatement_eq_false_iff.mpr (.inr (.inr hkind))))
  obtain ⟨hpending, hsemicolon⟩ := hstep.pending_of_braceClose hkind
  -- Nothing is collected, so the end of the source finds the state as it is.
  obtain ⟨s₂, hlast, houter, rfl⟩ := finish_eq_ok_iff.mp hfinish
  cases hlast with
  | statement hne => exact absurd hidle.buffer hne
  | nothing =>
    replace houter : s.outer = [] := by simpa using houter
    have hroot := (Runs.text start_sound hspells (by simp) h).2.nested
    rw [houter] at hroot
    refine ⟨⟨?_, hidle.buffer, hidle.depth, hpending, hsemicolon⟩, ?_⟩
    · rw [houter]
      exact .root hroot rfl
    · rw [closeAll, houter]
      rfl

end State

end Parse

/-! ### Main statement -/

/-- **Parsing is compositional.**  Let `front` be a source that a strict parse accepts and that ends
with a closing brace, and let any text follow.  The whole is parsed as the text is parsed alone: to
the same tree, moved back and with the children of `front` in front of its own, or to the same
error, moved back. -/
theorem parse_append {front : Source} {t : Tree Node} (hparse : parse front false = .ok t)
    {brace : Token} (hbrace : brace ∈ (tokenize front false).tokens.getLast?)
    (hkind : brace.kind = .braceClose) (text : String) :
    parse { front with text := front.text ++ text } false =
      match parse { front with text := text } false with
      | .ok u => .ok (u.behind front.endPosition t.children
          ⟨front.id, .start, ({ front with text := front.text ++ text } : Source).endPosition⟩)
      | .error err => .error (err.shift front.endPosition) := by
  obtain ⟨hfailure, s, hrun, hfinish⟩ := parse_eq_ok_iff.mp hparse
  obtain ⟨hstart, hchildren⟩ := hrun.continues_start (e := front.endPosition)
    (tokenize_covers hfailure).2 hbrace hkind hfinish
  have hfold := hstart.foldlM false (tokenize { front with text := text } false).tokens
  have halike : Parse.Alike front.endPosition
      (fun u whole => whole = u.behind front.endPosition t.children
        ⟨front.id, .start, ({ front with text := front.text ++ text } : Source).endPosition⟩)
      (parse { front with text := text } false)
      (parse { front with text := front.text ++ text } false) := by
    unfold parse
    dsimp only
    rw [tokenize_append hfailure hbrace hkind, List.foldlM_append, hrun, hchildren]
    refine Parse.Alike.bind (hstart.foldlM false _) fun s₁ s₂ hcontinues => ?_
    -- What the reader could not read counts only behind all tokens.
    dsimp only [Lexed.shift]
    cases (tokenize { front with text := text } false).failure with
    | some err => exact .error (.lexical err)
    | none =>
      exact hcontinues.finish { front with text := text } { front with text := front.text ++ text }
  generalize parse { front with text := text } false = alone at halike ⊢
  generalize parse { front with text := front.text ++ text } false = whole at halike ⊢
  cases halike with
  | ok hbehind => rw [hbehind]
  | error err => rfl

/-- A sheet that ends with a closing brace on its second line. -/
def bracedSheet : Source where
  text := "@media x\x7ba\x7bb:url(c)\x7d\n\x7d"
  id := 3

theorem parse_append_bracedSheet :
    ∃ t u, parse bracedSheet false = .ok t ∧
      parse { bracedSheet with text := "k:v;/*c*/" } false = .ok u ∧
      parse { bracedSheet with text := bracedSheet.text ++ "k:v;/*c*/" } false =
        .ok (u.behind ⟨22, 2, 2⟩ t.children ⟨3, .start, ⟨31, 2, 11⟩⟩) ∧
      parse { bracedSheet with text := bracedSheet.text ++ "k:v\x7d" } false =
        .error (.unexpectedCloseBrace ⟨25, 2, 5⟩) := by
  obtain ⟨t, ht⟩ := exists_ok_of_isOk (by decide +kernel : (parse bracedSheet false).isOk = true)
  obtain ⟨u, hu⟩ := exists_ok_of_isOk
    (by decide +kernel : (parse { bracedSheet with text := "k:v;/*c*/" } false).isOk = true)
  have hstray : parse { bracedSheet with text := "k:v\x7d" } false =
      .error (.unexpectedCloseBrace ⟨3, 1, 4⟩) := by decide +kernel
  obtain ⟨brace, hbrace, hkind⟩ := (Option.any_eq_true _ _).mp (by decide +kernel :
    (tokenize bracedSheet false).tokens.getLast?.any (·.kind == .braceClose) = true)
  refine ⟨t, u, ht, hu, ?_, ?_⟩
  · rw [parse_append ht hbrace (beq_iff_eq.mp hkind), hu]
    rfl
  · rw [parse_append ht hbrace (beq_iff_eq.mp hkind), hstray]
    rfl

end LosslessCss
