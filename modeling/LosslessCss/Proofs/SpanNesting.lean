import LosslessCss.Proofs.Places
import LosslessCss.Proofs.RoundTrip

/-!
# Spans lie inside each other and one behind the other

Whatever a parse yields, strict or lenient, the spans of its nodes are laid out like the nodes
themselves: the span of a node lies inside the span of its parent, and siblings come one behind the
other.  All ends are places of the source, so none of them is inside a character.

A span is written when its node is made, but the span of a block is written twice, since the block
ends later.  So the invariant of a parse is one of the open blocks as well: behind the finished
children of a block, up to the block inside it, and behind all that is finished, up to the tokens
that are collected, nothing goes backwards (`Parse.State.Ordered`).  What a token means is of no
importance for this.  Only the ends of its span are, so text that becomes no node does no harm.

## Main Definitions

* `Forest.subtrees`, `Tree.subtrees` : the trees below a value, in document order
* `Forest.Spread` : the spans of a forest between two offsets
* `Parse.State.Ordered` : nothing in the state of a parse goes backwards
* `Tree.SpansNest` : spans lie inside each other and one behind the other

## Main Statements

* `Parse.State.Runs.ordered` : a run keeps a state ordered
* `spansNest_of_parse`
-/

namespace LosslessCss

/-! ### Trees in a tree -/

universe u

/-- All trees of a forest, those inside others included, in document order. -/
def Forest.subtrees {α : Type u} : Forest α → List (Tree α)
  | nil => []
  | cons a children next => ⟨a, children⟩ :: (children.subtrees ++ next.subtrees)

/-- A tree and all trees inside it, in document order. -/
def Tree.subtrees {α : Type u} (t : Tree α) : List (Tree α) := t :: t.children.subtrees

namespace Forest

variable {α β : Type u}

@[simp]
theorem subtrees_append (f g : Forest α) : (f ++ g).subtrees = f.subtrees ++ g.subtrees := by
  induction f with
  | nil => rfl
  | cons a children next _ ih => simp [subtrees, ih]

theorem subtrees_map (g : α → β) (f : Forest α) :
    (f.map g).subtrees = f.subtrees.map (Tree.map g) := by
  induction f with
  | nil => rfl
  | cons a children next ihChildren ihNext =>
    simp [map, subtrees, ihChildren, ihNext, Tree.map]

/-- The values of a forest are those of the trees in it. -/
theorem preorder_eq_map_subtrees (f : Forest α) : f.preorder = f.subtrees.map Tree.value := by
  induction f with
  | nil => rfl
  | cons a children next ihChildren ihNext => simp [preorder, subtrees, ihChildren, ihNext]

end Forest

/-! ### Spans between two offsets -/

/-- **The spans of a forest lie between two offsets**, one behind the other, and inside each span
lie those of the children of its node. -/
def Forest.Spread (source : Source) : (lo hi : Nat) → Forest Node → Prop
  | lo, hi, nil => lo ≤ hi
  | lo, hi, cons n children next =>
    ∃ span, n.span = some span ∧ span.FitsIn source ∧ lo ≤ span.start.offset ∧
      children.Spread source span.start.offset span.stop.offset ∧
        next.Spread source span.stop.offset hi

/-- The spans of tokens lie between two offsets, one behind the other. -/
def Token.Spread (source : Source) : (lo hi : Nat) → List Token → Prop
  | lo, hi, [] => lo ≤ hi
  | lo, hi, t :: ts =>
    t.span.FitsIn source ∧ lo ≤ t.start.offset ∧ Spread source t.stop.offset hi ts

variable {source : Source} {lo hi hi' : Nat}

namespace Forest.Spread

variable {f g : Forest Node}

theorem le (h : f.Spread source lo hi) : lo ≤ hi := by
  induction f generalizing lo with
  | nil => exact h
  | cons n children next _ ih =>
    obtain ⟨span, -, hfits, hlo, -, hnext⟩ := h
    have := hfits.start_le_stop
    have := ih hnext
    omega

theorem mono (h : f.Spread source lo hi) (hhi : hi ≤ hi') : f.Spread source lo hi' := by
  induction f generalizing lo with
  | nil => exact Nat.le_trans h hhi
  | cons n children next _ ih =>
    obtain ⟨span, hspan, hfits, hlo, hchildren, hnext⟩ := h
    exact ⟨span, hspan, hfits, hlo, hchildren, ih hnext⟩

theorem from_zero (h : f.Spread source lo hi) : f.Spread source 0 hi := by
  cases f with
  | nil => exact Nat.zero_le _
  | cons n children next =>
    obtain ⟨span, hspan, hfits, -, hrest⟩ := h
    exact ⟨span, hspan, hfits, Nat.zero_le _, hrest⟩

/-- **One more tree** behind a forest. -/
theorem snoc (h : f.Spread source lo hi) {n : Node} {children : Forest Node} {span : Span}
    (hspan : n.span = some span) (hfits : span.FitsIn source) (hhi : hi ≤ span.start.offset)
    (hchildren : children.Spread source span.start.offset span.stop.offset) :
    (f ++ cons n children nil).Spread source lo span.stop.offset := by
  induction f generalizing lo with
  | nil => exact ⟨span, hspan, hfits, Nat.le_trans h hhi, hchildren, Nat.le_refl _⟩
  | cons m inner next _ ih =>
    obtain ⟨span', hspan', hfits', hlo, hinner, hnext⟩ := h
    exact ⟨span', hspan', hfits', hlo, hinner, ih hnext⟩

/-- A forest that is spread out lies inside its bounds, one tree behind the other. -/
theorem tops (h : f.Spread source lo hi) :
    (∀ n ∈ f.tops, ∀ span ∈ n.span, lo ≤ span.start.offset ∧ span.stop.offset ≤ hi) ∧
      f.tops.Pairwise fun n m => ∀ a ∈ n.span, ∀ b ∈ m.span, a.stop.offset ≤ b.start.offset := by
  induction f generalizing lo with
  | nil => exact ⟨by simp [Forest.tops], .nil⟩
  | cons n children next _ ih =>
    obtain ⟨span, hspan, hfits, hlo, -, hnext⟩ := h
    obtain ⟨hinside, hordered⟩ := ih hnext
    have hle := hfits.start_le_stop
    constructor
    · intro m hm a ha
      rcases List.mem_cons.mp hm with rfl | hm
      · obtain rfl : span = a := by simpa [hspan] using ha
        exact ⟨hlo, hnext.le⟩
      · have := hinside m hm a ha
        omega
    · refine List.pairwise_cons.mpr ⟨fun m hm a ha b hb => ?_, hordered⟩
      obtain rfl : span = a := by simpa [hspan] using ha
      exact (hinside m hm b hb).1

/-- **What is spread out is spread out at every depth.** -/
theorem subtrees (h : f.Spread source lo hi) {t : Tree Node} (ht : t ∈ f.subtrees) :
    ∃ span, t.value.span = some span ∧ span.FitsIn source ∧
      t.children.Spread source span.start.offset span.stop.offset := by
  induction f generalizing lo hi with
  | nil => cases ht
  | cons n children next ihChildren ihNext =>
    obtain ⟨span, hspan, hfits, -, hchildren, hnext⟩ := h
    rcases List.mem_cons.mp ht with rfl | ht
    · exact ⟨span, hspan, hfits, hchildren⟩
    · rcases List.mem_append.mp ht with ht | ht
      · exact ihChildren hchildren ht
      · exact ihNext hnext ht

end Forest.Spread

namespace Token

variable {ts us : List Token} {t : Token}

namespace Spread

theorem le (h : Spread source lo hi ts) : lo ≤ hi := by
  induction ts generalizing lo with
  | nil => exact h
  | cons t ts ih =>
    obtain ⟨hfits, hlo, hts⟩ := h
    have : t.start.offset ≤ t.stop.offset := hfits.start_le_stop
    have := ih hts
    omega

theorem mono (h : Spread source lo hi ts) (hhi : hi ≤ hi') : Spread source lo hi' ts := by
  induction ts generalizing lo with
  | nil => exact Nat.le_trans h hhi
  | cons t ts ih => exact ⟨h.1, h.2.1, ih h.2.2⟩

/-- One more token behind others. -/
theorem snoc (h : Spread source lo hi ts) (ht : t.span.FitsIn source) (hhi : hi ≤ t.start.offset) :
    Spread source lo t.stop.offset (ts ++ [t]) := by
  induction ts generalizing lo with
  | nil => exact ⟨ht, Nat.le_trans h hhi, Nat.le_refl _⟩
  | cons u ts ih => exact ⟨h.1, h.2.1, ih h.2.2⟩

/-- Each of the tokens lies between the two offsets. -/
theorem of_mem (h : Spread source lo hi ts) (ht : t ∈ ts) :
    t.span.FitsIn source ∧ lo ≤ t.start.offset ∧ t.stop.offset ≤ hi := by
  induction ts generalizing lo with
  | nil => cases ht
  | cons u ts ih =>
    obtain ⟨hfits, hlo, hts⟩ := h
    rcases List.mem_cons.mp ht with rfl | ht
    · exact ⟨hfits, hlo, hts.le⟩
    · obtain ⟨ht', hlo', hhi'⟩ := ih hts ht
      have : u.start.offset ≤ u.stop.offset := hfits.start_le_stop
      exact ⟨ht', by omega, hhi'⟩

/-- The first of the tokens starts in front of all of them. -/
theorem start_le (h : Spread source lo hi (t :: ts)) {u : Token} (hu : u ∈ t :: ts) :
    t.start.offset ≤ u.start.offset := by
  obtain ⟨hfits, -, hts⟩ := h
  rcases List.mem_cons.mp hu with rfl | hu
  · exact Nat.le_refl _
  · exact Nat.le_trans hfits.start_le_stop (hts.of_mem hu).2.1

end Spread

/-- **Tokens in a row are spread out** over the stretch that they cover. -/
theorem InRow.spread (front behind : String)
    (h : InRow source.id (Position.start.advance front) ts)
    (htext : source.text = front ++ concat ts ++ behind) :
    Spread source front.utf8ByteSize (front ++ concat ts).utf8ByteSize ts := by
  induction ts generalizing front with
  | nil => simp [Spread]
  | cons t ts ih =>
    obtain ⟨hspan, hts⟩ := h
    rw [← Position.advance_append] at hspan hts
    rw [concat_cons, ← String.append_assoc] at htext ⊢
    have hcovers : t.span.Covers source t.text :=
      ⟨front, concat ts ++ behind, by rw [htext, String.append_assoc], hspan⟩
    refine ⟨hcovers.fitsIn, ?_, ?_⟩
    · rw [start, hspan]
      simp
    · rw [stop, hspan]
      simpa using ih _ hts htext

end Token

/-- The tokens of a source that can be read to the end are spread out over it. -/
theorem tokenize_spread {lenient : Bool} (h : (tokenize source lenient).failure = none) :
    Token.Spread source 0 source.endPosition.offset (tokenize source lenient).tokens := by
  have htext := (tokenize_covers h).1
  have hspread := (tokenize_inRow source lenient).spread "" "" (by simp [htext])
  rw [source.endPosition_offset, Source.size]
  simpa [htext] using hspread

/-! ### Open blocks -/

namespace Parse

/-- **Blocks from the inside out in which nothing goes backwards**: the children of each lie between
its start and the block inside it, those of the innermost one between its start and `hi`. -/
def Stacked (source : Source) : (hi : Nat) → List Block → Prop
  | _, [] => True
  | hi, b :: outer =>
    source.IsPlace b.start ∧ (Forest.ofLatestFirst b.children).Spread source b.start.offset hi ∧
      (outer ≠ [] → ∃ stop, b.node.span = some ⟨source.id, b.start, stop⟩) ∧
        Stacked source b.start.offset outer

namespace Stacked

variable {b : Block} {blocks : List Block}

theorem mono (h : Stacked source hi blocks) (hhi : hi ≤ hi') : Stacked source hi' blocks := by
  cases blocks with
  | nil => trivial
  | cons b outer => exact ⟨h.1, h.2.1.mono hhi, h.2.2⟩

/-- **One more tree** behind the children of the innermost block. -/
theorem snoc (h : Stacked source hi (b :: blocks)) {n : Node} {children : Forest Node} {span : Span}
    (hspan : n.span = some span) (hfits : span.FitsIn source) (hhi : hi ≤ span.start.offset)
    (hchildren : children.Spread source span.start.offset span.stop.offset) :
    Stacked source span.stop.offset
      ({ b with children := ⟨n, children⟩ :: b.children } :: blocks) := by
  obtain ⟨hstart, hspread, hnode, houter⟩ := h
  refine ⟨hstart, ?_, hnode, houter⟩
  rw [Forest.ofLatestFirst_cons]
  exact hspread.snoc hspan hfits hhi hchildren

end Stacked

namespace State

variable {lenient : Bool} {s s' : State} {t : Token} {ts : List Token} {here : Nat}

/-- **Nothing in the state goes backwards** up to the offset `here`: finished nodes lie in front of
the tokens that are collected. -/
def Ordered (source : Source) (here : Nat) (s : State) : Prop :=
  ∃ mark, Stacked source mark (s.block :: s.outer) ∧
    Token.Spread source mark here s.buffer.reverse

theorem start_ordered : start.Ordered source 0 :=
  ⟨0, ⟨source.isPlace_start, Nat.le_refl _, fun h => absurd rfl h, trivial⟩, Nat.le_refl _⟩

theorem Ordered.mono (h : s.Ordered source hi) (hhi : hi ≤ hi') : s.Ordered source hi' := by
  obtain ⟨mark, hstacked, hbuffer⟩ := h
  exact ⟨mark, hstacked, hbuffer.mono hhi⟩

/-- Between two statements all that is finished lies in front. -/
theorem Ordered.stacked (h : s.Ordered source here) (hbuffer : s.buffer = []) :
    Stacked source here (s.block :: s.outer) := by
  obtain ⟨mark, hstacked, hspread⟩ := h
  rw [hbuffer] at hspread
  exact hstacked.mono hspread

/-- Where nothing is collected a state is ordered if its blocks are. -/
theorem Ordered.of_stacked (h : Stacked source here (s.block :: s.outer))
    (hbuffer : s.buffer = []) : s.Ordered source here := by
  refine ⟨here, h, ?_⟩
  rw [hbuffer]
  exact Nat.le_refl _

/-- **A statement is completed.**  Its node spans it up to its semicolon, or else up to the blank
space at its end. -/
theorem completed_ordered {semicolon? : Option Token} (hs : s.Ordered source here)
    (hsemicolon : ∀ t ∈ semicolon?, t.span.FitsIn source ∧ here ≤ t.start.offset)
    {first : Token} {others : List Token} (hrun : s.buffer.reverse = first :: others)
    (node : Option String → Node) :
    (s.completed first (first :: others) semicolon? node).Ordered source
      ((semicolon?.map (·.stop.offset)).getD here) := by
  obtain ⟨mark, hstacked, hbuffer⟩ := hs
  rw [hrun] at hbuffer
  obtain ⟨hfirst, hmark, hhere⟩ := hbuffer.of_mem List.mem_cons_self
  -- The span ends with one of the tokens of the run or with the semicolon behind them.
  obtain ⟨last, hlast, hfits, hstart, hstop⟩ : ∃ last : Token,
      semicolon?.getD ((Statement.content (first :: others)).getLast?.getD first) = last ∧
        last.span.FitsIn source ∧ first.start.offset ≤ last.start.offset ∧
          last.stop.offset ≤ (semicolon?.map (·.stop.offset)).getD here := by
    refine ⟨_, rfl, ?_⟩
    cases semicolon? with
    | some t =>
      obtain ⟨hfits, hle⟩ := hsemicolon t rfl
      have hbehind : first.start.offset ≤ here := Nat.le_trans hfirst.start_le_stop hhere
      exact ⟨hfits, Nat.le_trans hbehind hle, Nat.le_refl _⟩
    | none =>
      have hmem : (Statement.content (first :: others)).getLast?.getD first ∈ first :: others := by
        cases hlast : (Statement.content (first :: others)).getLast? with
        | none => exact List.mem_cons_self
        | some last => exact (dropTrailing_isPrefix _ _).subset (List.mem_of_getLast? hlast)
      obtain ⟨hfits, -, hstop⟩ := hbuffer.of_mem hmem
      exact ⟨hfits, hbuffer.start_le hmem, hstop⟩
  have hspan : Span.FitsIn ⟨first.span.source, first.start, last.stop⟩ source :=
    ⟨hfirst.source, hfirst.start, hfits.stop, Nat.le_trans hstart hfits.start_le_stop⟩
  subst hlast
  exact Ordered.mono
    (Ordered.of_stacked (hstacked.snoc rfl hspan hmark hspan.start_le_stop) rfl) hstop

/-- **The end of a statement** keeps a state ordered, up to the end of its semicolon. -/
theorem Ends.ordered {semicolon? : Option Token} (hs : s.Ordered source here)
    (hsemicolon : ∀ t ∈ semicolon?, t.span.FitsIn source ∧ here ≤ t.start.offset)
    (h : s.Ends lenient semicolon? s') :
    s'.Ordered source ((semicolon?.map (·.stop.offset)).getD here) := by
  cases h with
  | atRule hrun => exact completed_ordered hs hsemicolon hrun _
  | declaration hrun => exact completed_ordered hs hsemicolon hrun _
  | kept =>
    obtain ⟨mark, hstacked, hbuffer⟩ := hs
    have hhere : here ≤ (semicolon?.map (·.stop.offset)).getD here := by
      cases semicolon? with
      | none => exact Nat.le_refl _
      | some t =>
        obtain ⟨hfits, hle⟩ := hsemicolon t rfl
        exact Nat.le_trans hle hfits.start_le_stop
    have hkept : Stacked source here (s.block :: s.outer) := hstacked.mono hbuffer.le
    exact Ordered.mono ⟨here, hkept, Nat.le_refl _⟩ hhere

/-- **The end of a block.** -/
theorem close_ordered (h : Stacked source here (s.block :: s.outer)) (hbuffer : s.buffer = [])
    (houter : s.outer ≠ []) {stop : Position} (hplace : source.IsPlace stop)
    (hhere : here ≤ stop.offset) : (s.close stop).Ordered source stop.offset := by
  obtain ⟨parent, outer, hcons⟩ := List.exists_cons_of_ne_nil houter
  obtain ⟨hstart, hchildren, hnode, hstacked⟩ := h
  obtain ⟨inner, hspan⟩ := hnode houter
  rw [hcons] at hstacked
  have hclosed : (s.closedNode stop).span = some ⟨source.id, s.block.start, stop⟩ := by
    simp [closedNode, ended, hspan]
  have hle : s.block.start.offset ≤ stop.offset := Nat.le_trans hchildren.le hhere
  rw [close_eq hcons]
  exact Ordered.of_stacked
    (hstacked.snoc hclosed ⟨rfl, hstart, hplace, hle⟩ (Nat.le_refl _) (hchildren.mono hhere))
    hbuffer

/-- **A block that is opened** starts where its head does or, without a head, at its brace. -/
theorem openBlock_ordered (hs : s.Ordered source here) (ht : t.span.FitsIn source)
    (hhere : here ≤ t.start.offset) : (s.openBlock t).Ordered source t.stop.offset := by
  have hle : t.start.offset ≤ t.stop.offset := ht.start_le_stop
  obtain ⟨mark, hstacked, hbuffer⟩ := hs
  obtain ⟨hplace, hmark, hstop⟩ : source.IsPlace (s.buffer.reverse.head?.getD t).start ∧
      mark ≤ (s.buffer.reverse.head?.getD t).start.offset ∧
        (s.buffer.reverse.head?.getD t).start.offset ≤ t.stop.offset := by
    cases hrun : s.buffer.reverse with
    | nil =>
      rw [hrun] at hbuffer
      exact ⟨ht.start, Nat.le_trans hbuffer hhere, hle⟩
    | cons first others =>
      rw [hrun] at hbuffer
      obtain ⟨hfits, hmark, hstop⟩ := hbuffer.of_mem List.mem_cons_self
      have hlength : first.start.offset ≤ first.stop.offset := hfits.start_le_stop
      exact ⟨hfits.start, hmark, by simp; omega⟩
  rw [openBlock_eq_block]
  exact Ordered.of_stacked
    ⟨hplace, hstop, fun _ => ⟨t.stop, by rw [← ht.source]; rfl⟩, hstacked.mono hmark⟩ rfl

/-- **One token** keeps a state ordered, up to its own end. -/
theorem Steps.ordered (hs : s.Ordered source here) (ht : t.span.FitsIn source)
    (hhere : here ≤ t.start.offset) (h : s.Steps lenient t s') :
    s'.Ordered source t.stop.offset := by
  have hle : t.start.offset ≤ t.stop.offset := ht.start_le_stop
  have hkeep {s : State} (x : String) (hs : s.Ordered source here) :
      (s.keep x).Ordered source t.stop.offset := Ordered.mono hs (Nat.le_trans hhere hle)
  have hpush : (s.push t).Ordered source t.stop.offset := by
    obtain ⟨mark, hstacked, hbuffer⟩ := hs
    refine ⟨mark, hstacked, ?_⟩
    rw [push, List.reverse_cons]
    exact hbuffer.snoc ht hhere
  cases h with
  | gap => exact hkeep _ hs
  | stray => exact hkeep _ hs
  | first => exact hpush
  | more => exact hpush
  | comment hbuffer =>
    exact Ordered.of_stacked ((hs.stacked hbuffer).snoc rfl ht hhere hle) hbuffer
  | openBlock => exact openBlock_ordered hs ht hhere
  | close hbuffer _ houter =>
    exact close_ordered (hs.stacked hbuffer) hbuffer houter ht.stop (Nat.le_trans hhere hle)
  | semicolon _ _ _ hends => exact hends.ordered hs (by simpa using ⟨ht, hhere⟩)
  | @endClose s₁ _ _ houter hends =>
    have hs₁ := hends.ordered hs (by simp)
    exact close_ordered (hs₁.stacked hends.frame.1) hends.frame.1
      (by rwa [hends.frame.2.2.1]) ht.stop (Nat.le_trans hhere hle)
  | endStray _ _ _ _ hends => exact hkeep _ (hends.ordered hs (by simp))

/-- **A run** keeps a state ordered. -/
theorem Runs.ordered (hs : s.Ordered source lo) (hts : Token.Spread source lo hi ts)
    (h : Runs lenient s ts s') : s'.Ordered source hi := by
  induction ts generalizing s lo with
  | nil =>
    obtain rfl := runs_nil.mp h
    exact hs.mono hts
  | cons t ts ih =>
    obtain ⟨s₁, hstep, hrest⟩ := runs_cons.mp h
    exact ih (hstep.ordered hs hts.1 hts.2.1) hts.2.2 hrest

/-- The blocks that the end of the source ends are ordered as well. -/
theorem closeAll_ordered (hs : s.Ordered source source.endPosition.offset)
    (hbuffer : s.buffer = []) :
    (s.closeAll source.endPosition).Ordered source source.endPosition.offset ∧
      (s.closeAll source.endPosition).buffer = [] := by
  refine (closeAll_keeps source.endPosition
    (P := fun s => s.Ordered source source.endPosition.offset ∧ s.buffer = []) ⟨hs, hbuffer⟩ ?_).1
  rintro s ⟨hs, hbuffer⟩ houter
  obtain ⟨parent, outer, hcons⟩ := List.exists_cons_of_ne_nil houter
  refine ⟨close_ordered (hs.stacked hbuffer) hbuffer houter source.isPlace_endPosition
    (Nat.le_refl _), ?_⟩
  rw [close_eq hcons]
  exact hbuffer

end State

end Parse

/-! ### Main statement -/

/-- **Spans lie inside each other and one behind the other**, as their nodes do. -/
structure Tree.SpansNest (source : Source) (t : Tree Node) : Prop where
  /-- The root spans the whole source. -/
  root : t.value.span = some ⟨source.id, .start, source.endPosition⟩ ∧
    source.endPosition.offset = source.size
  /-- Every node has a span, which carries the number of the source, starts no later than it ends,
  and starts and ends between characters. -/
  fits : ∀ u ∈ t.subtrees, ∃ span, u.value.span = some span ∧ span.FitsIn source
  /-- The span of a node lies inside the span of its parent. -/
  inside : ∀ u ∈ t.subtrees, ∀ n ∈ u.children.tops, ∀ outer ∈ u.value.span, ∀ inner ∈ n.span,
    outer.start.offset ≤ inner.start.offset ∧ inner.stop.offset ≤ outer.stop.offset
  /-- Of two siblings the earlier one ends no later than the later one starts. -/
  ordered : ∀ u ∈ t.subtrees, u.children.tops.Pairwise fun n m =>
    ∀ a ∈ n.span, ∀ b ∈ m.span, a.stop.offset ≤ b.start.offset

/-- **The spans of a parse nest**, whether it is strict or lenient. -/
theorem spansNest_of_parse {lenient : Bool} {t : Tree Node} (h : parse source lenient = .ok t) :
    t.SpansNest source := by
  obtain ⟨hfailure, s, hrun, hfinish⟩ := parse_eq_ok_iff.mp h
  obtain ⟨s₁, hlast, -, rfl⟩ := Parse.State.finish_eq_ok_iff.mp hfinish
  have hs := hrun.ordered Parse.State.start_ordered (tokenize_spread hfailure)
  obtain ⟨hs₁, hbuffer⟩ : s₁.Ordered source source.endPosition.offset ∧ s₁.buffer = [] := by
    cases hlast with
    | nothing hnil => exact ⟨hs, hnil⟩
    | statement _ hends => exact ⟨hends.ordered hs (by simp), hends.frame.1⟩
  obtain ⟨hall, hnil⟩ := Parse.State.closeAll_ordered hs₁ hbuffer
  have hspread : (Forest.ofLatestFirst (s₁.closeAll source.endPosition).block.children).Spread
      source 0 source.endPosition.offset := (hall.stacked hnil).2.1.from_zero
  have hwhole : Span.FitsIn ⟨source.id, .start, source.endPosition⟩ source :=
    ⟨rfl, source.isPlace_start, source.isPlace_endPosition, Nat.zero_le _⟩
  -- The root is a node like any other, so that there is only one thing to show of a node.
  have hnode : ∀ u ∈ ((s₁.closeAll source.endPosition).tree source).subtrees,
      ∃ span, u.value.span = some span ∧ span.FitsIn source ∧
        u.children.Spread source span.start.offset span.stop.offset := by
    intro u hu
    rcases List.mem_cons.mp hu with rfl | hu
    · exact ⟨_, rfl, hwhole, hspread⟩
    · exact hspread.subtrees hu
  refine ⟨⟨rfl, source.endPosition_offset⟩, fun u hu => ?_,
    fun u hu n hn outer houter inner hinner => ?_, fun u hu => ?_⟩
  · obtain ⟨span, hspan, hfits, -⟩ := hnode u hu
    exact ⟨span, hspan, hfits⟩
  · obtain ⟨span, hspan, -, hchildren⟩ := hnode u hu
    obtain rfl : span = outer := by simpa [hspan] using houter
    exact hchildren.tops.1 n hn inner hinner
  · obtain ⟨span, -, -, hchildren⟩ := hnode u hu
    exact hchildren.tops.2

theorem spansNest_brokenSheet :
    ∃ t, parse brokenSheet true = .ok t ∧ t.SpansNest brokenSheet := by
  obtain ⟨t, ht⟩ := exists_ok_of_isOk (by decide +kernel : (parse brokenSheet true).isOk = true)
  exact ⟨t, ht, spansNest_of_parse ht⟩

end LosslessCss
