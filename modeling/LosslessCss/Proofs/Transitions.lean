import LosslessCss.Parse
import Mathlib

/-!
# What a token can do to a parse

`Parse.State.step` and `Parse.State.endStatement` are nested tests.  Here their outcomes stand side
by side, each with the tests that lead to it: `State.Ends` for the end of a statement, `State.Steps`
for a token.  Every fact about parsing is a case analysis over these outcomes and an induction over
the tokens of a run (`State.Runs`).

## Main Definitions

* `Statement.block`, `Statement.atRule`, `Statement.declaration` : the node that a run of tokens
  becomes
* `Parse.State.Ends` : the outcomes of the end of a statement
* `Parse.State.Steps` : the outcomes of a token

## Main Statements

* `Parse.State.endStatement_eq_ok_iff`, `Parse.State.step_eq_ok_iff`
* `parse_eq_ok_iff` : a parse is a run over the tokens followed by `Parse.State.finish`
-/

namespace LosslessCss

/-- The head of a block that a run of tokens becomes: an at-rule if it starts with an at-word, and a
rule otherwise. -/
def Statement.block (run : List Token) : Node :=
  if (content run).head?.any (·.kind == .atWord) then
    { content := .atRule (AtRuleHead.ofTokens (content run)).name
        (AtRuleHead.ofTokens (content run)).params true
      raws :=
        { afterName := some (AtRuleHead.ofTokens (content run)).afterName
          between := some (Token.concat (gap run)) } }
  else
    { content := .rule (Token.concat (content run))
      raws := { between := some (Token.concat (gap run)) } }

theorem Statement.block_opensBlock (run : List Token) :
    (block run).content.opensBlock = true := by
  unfold block
  split <;> rfl

/-- A node with a block is a statement. -/
theorem Content.isComment_of_opensBlock {c : Content}
    (h : c.opensBlock = true) : c.isComment = false := by
  cases c <;> simp_all [Content.isComment, Content.opensBlock]

/-- The at-rule without a body that a run of tokens becomes. -/
def Statement.atRule (run : List Token) (gap : Option String) : Node where
  content := .atRule (AtRuleHead.ofTokens (content run)).name
    (AtRuleHead.ofTokens (content run)).params false
  raws := { afterName := some (AtRuleHead.ofTokens (content run)).afterName, between := gap }

/-- The declaration with the given parts. -/
def Statement.declaration (parts : DeclarationParts) (gap : Option String) : Node where
  content := .declaration parts.property parts.value parts.important.isSome
  raws := { between := some parts.between, important := parts.important, afterValue := gap }

namespace Token.Kind

/-- A token of the kind starts a statement, if none is being collected. -/
def startsStatement : Kind → Bool
  | space | semicolon | comment | braceOpen | braceClose => false
  | _ => true

/-- A token of the kind goes on with a statement in which `depth` parentheses and brackets are
open. -/
def continuesStatement (depth : Nat) : Kind → Bool
  | braceOpen | braceClose => false
  | semicolon => depth != 0
  | _ => true

/-- **A statement stops** at a semicolon outside all parentheses, and at braces. -/
theorem continuesStatement_eq_false_iff {depth : Nat} {k : Kind} :
    k.continuesStatement depth = false ↔
      k = .semicolon ∧ depth = 0 ∨ k = .braceOpen ∨ k = .braceClose := by
  cases k <;> simp [continuesStatement]

/-- What goes on with a statement starts one, unless it is blank space or a comment. -/
theorem startsStatement_of_continuesStatement {k : Kind} (h : k.continuesStatement 0 = true)
    (hspace : k ≠ .space) (hcomment : k ≠ .comment) : k.startsStatement = true := by
  cases k <;> simp_all [continuesStatement, startsStatement]

end Token.Kind

namespace Parse.State

/-! ### The end of a statement -/

/-- **How a statement ends.**  It becomes an at-rule or a declaration; a lenient parse can also keep
its text. -/
inductive Ends (lenient : Bool) (s : State) (semicolon? : Option Token) : State → Prop
  | atRule {first : Token} {others : List Token} (hrun : s.buffer.reverse = first :: others)
      (hkind : first.kind = .atWord) :
      Ends lenient s semicolon? (s.completed first (first :: others) semicolon?
        (Statement.atRule (first :: others)))
  | declaration {first : Token} {others : List Token} {parts : DeclarationParts}
      (hrun : s.buffer.reverse = first :: others) (hkind : first.kind ≠ .atWord)
      (hparts : DeclarationParts.ofTokens (Statement.content (first :: others)) = .ok parts) :
      Ends lenient s semicolon? (s.completed first (first :: others) semicolon?
        (Statement.declaration parts))
  | kept {first : Token} {others : List Token} {fault : DeclarationFault}
      (hlenient : lenient = true) (hrun : s.buffer.reverse = first :: others)
      (hkind : first.kind ≠ .atWord)
      (hfault : DeclarationParts.ofTokens (Statement.content (first :: others)) = .error fault) :
      Ends lenient s semicolon? ({ s with buffer := [], depth := 0 }.keep
        (Token.concat (first :: others) ++ (semicolon?.map Token.text).getD ""))

/-- **The ways to end a statement are all there are.** -/
theorem endStatement_eq_ok_iff {lenient : Bool} {s s' : State} {semicolon? : Option Token}
    (hbuffer : s.buffer ≠ []) :
    s.endStatement lenient semicolon? = .ok s' ↔ s.Ends lenient semicolon? s' := by
  obtain ⟨first, others, hrun⟩ := List.exists_cons_of_ne_nil
    (mt List.reverse_eq_nil_iff.mp hbuffer)
  constructor
  · intro h
    unfold endStatement at h
    rw [hrun] at h
    dsimp only at h
    split at h
    · next hkind =>
      cases h
      exact .atRule hrun hkind
    · next hkind =>
      split at h
      · next parts hparts =>
        cases h
        exact .declaration hrun hkind hparts
      · next fault hfault =>
        split at h
        · next hlenient =>
          cases h
          exact .kept hlenient hrun hkind hfault
        · split at h <;> cases h
  · intro h
    cases h with
    | atRule hrun hkind =>
      simp only [endStatement, hrun, hkind, if_true]
      rfl
    | declaration hrun hkind hparts =>
      simp only [endStatement, hrun, hkind, if_false, hparts]
      rfl
    | kept hlenient hrun hkind hfault =>
      simp only [endStatement, hrun, hkind, if_false, hfault, hlenient, if_true]

/-- A lenient parse ends every statement. -/
theorem exists_ends_of_lenient {s : State} (semicolon? : Option Token) (hbuffer : s.buffer ≠ []) :
    ∃ s', s.Ends true semicolon? s' := by
  obtain ⟨first, others, hrun⟩ := List.exists_cons_of_ne_nil
    (mt List.reverse_eq_nil_iff.mp hbuffer)
  by_cases hkind : first.kind = .atWord
  · exact ⟨_, .atRule hrun hkind⟩
  · cases hparts : DeclarationParts.ofTokens (Statement.content (first :: others)) with
    | ok parts => exact ⟨_, .declaration hrun hkind hparts⟩
    | error fault => exact ⟨_, .kept rfl hrun hkind hparts⟩

/-- Behind a statement nothing is collected, and the blocks around are the same. -/
theorem Ends.frame {lenient : Bool} {s s' : State} {semicolon? : Option Token}
    (h : s.Ends lenient semicolon? s') :
    s'.buffer = [] ∧ s'.depth = 0 ∧ s'.outer = s.outer ∧ s'.block.node = s.block.node := by
  cases h <;> exact ⟨rfl, rfl, rfl, rfl⟩

/-! ### Blocks -/

/-- A new block starts with nothing read in it, inside the block that was the current one.  It
starts where its head does or, without a head, at its brace. -/
theorem openBlock_eq_block (s : State) (brace : Token) :
    s.openBlock brace =
      { block :=
          ⟨s.placed
            { Statement.block s.buffer.reverse with
              span := some ⟨brace.span.source, (s.buffer.reverse.head?.getD brace).start,
                brace.stop⟩ },
            (s.buffer.reverse.head?.getD brace).start, []⟩
        outer := s.block :: s.outer
        buffer := []
        depth := 0
        pending := ""
        semicolon := false } := by
  unfold openBlock Statement.block
  dsimp only
  split <;> rfl

/-- A new block at some place. -/
theorem openBlock_eq (s : State) (brace : Token) :
    ∃ start span, s.openBlock brace =
      { block := ⟨s.placed { Statement.block s.buffer.reverse with span := span }, start, []⟩
        outer := s.block :: s.outer
        buffer := []
        depth := 0
        pending := ""
        semicolon := false } :=
  ⟨_, _, s.openBlock_eq_block brace⟩

/-- The node of the current block when it is closed at the given place. -/
def closedNode (s : State) (stop : Position) : Node :=
  { s.ended with span := s.ended.span.map fun span => { span with stop := stop } }

@[simp]
theorem closedNode_content (s : State) (stop : Position) :
    (s.closedNode stop).content = s.block.node.content := rfl

@[simp]
theorem closedNode_raws (s : State) (stop : Position) :
    (s.closedNode stop).raws =
      { s.block.node.raws with after := some s.pending, semicolon := some s.semicolon } := rfl

/-- A block that is closed becomes the last child of the block around it. -/
theorem close_eq {s : State} {parent : Block} {outer : List Block}
    (houter : s.outer = parent :: outer) (stop : Position) :
    s.close stop =
      { s with
        block :=
          { parent with
            children :=
              ⟨s.closedNode stop, .ofLatestFirst s.block.children⟩ :: parent.children }
        outer := outer
        pending := ""
        semicolon := false } := by
  simp [close, houter, closedNode]

/-! ### One token -/

/-- **What a token does to a parse.**  Between statements it is kept as text, becomes a comment,
opens or closes a block or starts a statement; inside a statement it is collected or ends it. -/
inductive Steps (lenient : Bool) (s : State) (t : Token) : State → Prop
  | gap (hbuffer : s.buffer = []) (hkind : t.kind = .space ∨ t.kind = .semicolon) :
      Steps lenient s t (s.keep t.text)
  | comment (hbuffer : s.buffer = []) (hkind : t.kind = .comment) :
      Steps lenient s t (s.comment t)
  | openBlock (hkind : t.kind = .braceOpen) : Steps lenient s t (s.openBlock t)
  | close (hbuffer : s.buffer = []) (hkind : t.kind = .braceClose) (houter : s.outer ≠ []) :
      Steps lenient s t (s.close t.stop)
  | stray (hlenient : lenient = true) (hbuffer : s.buffer = []) (hkind : t.kind = .braceClose)
      (houter : s.outer = []) : Steps lenient s t (s.keep t.text)
  | first (hbuffer : s.buffer = []) (hkind : t.kind.startsStatement = true) :
      Steps lenient s t (s.push t)
  | more (hbuffer : s.buffer ≠ []) (hkind : t.kind.continuesStatement s.depth = true) :
      Steps lenient s t (s.push t)
  | semicolon {s' : State} (hbuffer : s.buffer ≠ []) (hkind : t.kind = .semicolon)
      (hdepth : s.depth = 0) (hends : s.Ends lenient (some t) s') : Steps lenient s t s'
  | endClose {s' : State} (hbuffer : s.buffer ≠ []) (hkind : t.kind = .braceClose)
      (houter : s.outer ≠ []) (hends : s.Ends lenient none s') :
      Steps lenient s t (s'.close t.stop)
  | endStray {s' : State} (hlenient : lenient = true) (hbuffer : s.buffer ≠ [])
      (hkind : t.kind = .braceClose) (houter : s.outer = []) (hends : s.Ends lenient none s') :
      Steps lenient s t (s'.keep t.text)

theorem closeBlock_eq_ok_iff {lenient : Bool} {s s' : State} {brace : Token} :
    s.closeBlock lenient brace = .ok s' ↔
      (s.outer ≠ [] ∧ s' = s.close brace.stop) ∨
        (lenient = true ∧ s.outer = [] ∧ s' = s.keep brace.text) := by
  unfold closeBlock
  cases houter : s.outer <;> cases lenient <;> simp [eq_comm]

/-- **The outcomes of a token are all there are.** -/
theorem step_eq_ok_iff {lenient : Bool} {s s' : State} {t : Token} :
    s.step lenient t = .ok s' ↔ s.Steps lenient t s' := by
  constructor
  · intro h
    unfold step at h
    split at h
    · next hempty =>
      have hbuffer : s.buffer = [] := by simpa using hempty
      split at h
      · next hkind =>
        cases h
        exact .gap hbuffer (.inl hkind)
      · next hkind =>
        cases h
        exact .gap hbuffer (.inr hkind)
      · next hkind =>
        cases h
        exact .comment hbuffer hkind
      · next hkind =>
        cases h
        exact .openBlock hkind
      · next hkind =>
        rcases closeBlock_eq_ok_iff.mp h with ⟨houter, rfl⟩ | ⟨hlenient, houter, rfl⟩
        · exact .close hbuffer hkind houter
        · exact .stray hlenient hbuffer hkind houter
      · cases h
        exact .first hbuffer (by cases hk : t.kind <;> simp_all [Token.Kind.startsStatement])
    · next hempty =>
      have hbuffer : s.buffer ≠ [] := by simpa using hempty
      split at h
      · next hkind =>
        split at h
        · next hdepth =>
          exact .semicolon hbuffer hkind hdepth ((endStatement_eq_ok_iff hbuffer).mp h)
        · next hdepth =>
          cases h
          exact .more hbuffer (by simp [Token.Kind.continuesStatement, hkind, hdepth])
      · next hkind =>
        cases h
        exact .openBlock hkind
      · next hkind =>
        cases hend : s.endStatement lenient none with
        | error e => simp [hend, bind, Except.bind] at h
        | ok s₁ =>
          simp only [hend, bind, Except.bind] at h
          have hends := (endStatement_eq_ok_iff hbuffer).mp hend
          rcases closeBlock_eq_ok_iff.mp h with ⟨houter, rfl⟩ | ⟨hlenient, houter, rfl⟩
          · exact .endClose hbuffer hkind (by rwa [hends.frame.2.2.1] at houter) hends
          · exact .endStray hlenient hbuffer hkind (by rwa [hends.frame.2.2.1] at houter) hends
      · cases h
        exact .more hbuffer (by cases hk : t.kind <;> simp_all [Token.Kind.continuesStatement])
  · intro h
    cases h with
    | gap hbuffer hkind => rcases hkind with hkind | hkind <;> simp [step, hbuffer, hkind]
    | comment hbuffer hkind => simp [step, hbuffer, hkind]
    | openBlock hkind => simp [step, hkind]
    | close hbuffer hkind houter =>
      simpa [step, hbuffer, hkind] using closeBlock_eq_ok_iff.mpr (.inl ⟨houter, rfl⟩)
    | stray hlenient hbuffer hkind houter =>
      simpa [step, hbuffer, hkind] using closeBlock_eq_ok_iff.mpr (.inr ⟨hlenient, houter, rfl⟩)
    | first hbuffer hkind =>
      cases hk : t.kind <;> simp_all [step, Token.Kind.startsStatement]
    | more hbuffer hkind =>
      cases hk : t.kind <;> simp_all [step, Token.Kind.continuesStatement]
    | semicolon hbuffer hkind hdepth hends =>
      simpa [step, hbuffer, hkind, hdepth] using (endStatement_eq_ok_iff hbuffer).mpr hends
    | @endClose s₁ hbuffer hkind houter hends =>
      have hclose : s₁.closeBlock lenient t = .ok (s₁.close t.stop) :=
        closeBlock_eq_ok_iff.mpr (.inl ⟨by rwa [← hends.frame.2.2.1] at houter, rfl⟩)
      simpa [step, hbuffer, hkind, (endStatement_eq_ok_iff hbuffer).mpr hends, bind, Except.bind]
        using hclose
    | @endStray s₁ hlenient hbuffer hkind houter hends =>
      have hclose : s₁.closeBlock lenient t = .ok (s₁.keep t.text) :=
        closeBlock_eq_ok_iff.mpr
          (.inr ⟨hlenient, by rwa [← hends.frame.2.2.1] at houter, rfl⟩)
      simpa [step, hbuffer, hkind, (endStatement_eq_ok_iff hbuffer).mpr hends, bind, Except.bind]
        using hclose

/-! ### Runs -/

/-- The tokens lead from one state to another. -/
def Runs (lenient : Bool) (s : State) (ts : List Token) (s' : State) : Prop :=
  ts.foldlM (step lenient) s = .ok s'

variable {lenient : Bool} {s s' s'' : State} {t : Token} {ts us : List Token}

@[simp]
theorem runs_nil : Runs lenient s [] s' ↔ s = s' := by
  simp [Runs, pure, Except.pure]

/-- A run starts with a step. -/
theorem runs_cons :
    Runs lenient s (t :: ts) s'' ↔ ∃ s', s.Steps lenient t s' ∧ Runs lenient s' ts s'' := by
  unfold Runs
  rw [List.foldlM_cons]
  cases hstep : s.step lenient t with
  | error e =>
    constructor
    · intro h
      cases h
    · rintro ⟨s', hs', -⟩
      rw [step_eq_ok_iff.mpr hs'] at hstep
      cases hstep
  | ok s₁ =>
    constructor
    · intro h
      exact ⟨s₁, step_eq_ok_iff.mp hstep, h⟩
    · rintro ⟨s', hs', h⟩
      rw [step_eq_ok_iff.mpr hs'] at hstep
      cases hstep
      exact h

/-- **Runs compose.** -/
theorem runs_append :
    Runs lenient s (ts ++ us) s'' ↔ ∃ s', Runs lenient s ts s' ∧ Runs lenient s' us s'' := by
  induction ts generalizing s with
  | nil => simp
  | cons t ts ih =>
    rw [List.cons_append, runs_cons]
    simp only [ih, runs_cons]
    constructor
    · rintro ⟨s₁, hstep, s₂, hts, hus⟩
      exact ⟨s₂, ⟨s₁, hstep, hts⟩, hus⟩
    · rintro ⟨s₂, ⟨s₁, hstep, hts⟩, hus⟩
      exact ⟨s₁, hstep, s₂, hts, hus⟩

/-! ### The end of the source -/

/-- The tree that a state stands for when the source ends and only the root is open. -/
def tree (source : Source) (s : State) : Tree Node where
  value := { s.ended with span := some ⟨source.id, .start, source.endPosition⟩ }
  children := .ofLatestFirst s.block.children

/-- The statement that the end of the source finds is ended. -/
inductive EndsLast (lenient : Bool) (s : State) : State → Prop
  | nothing (hbuffer : s.buffer = []) : EndsLast lenient s s
  | statement {s' : State} (hbuffer : s.buffer ≠ []) (hends : s.Ends lenient none s') :
      EndsLast lenient s s'

/-- The end of the source as a statement that may have to be ended and a test of the blocks. -/
theorem finish_eq_bind (source : Source) (lenient : Bool) (s : State) :
    s.finish source lenient =
      (if s.buffer.isEmpty then .ok s else s.endStatement lenient none).bind fun s =>
        if !s.outer.isEmpty && !lenient then .error (.unclosedBlock s.block.start)
        else .ok ((s.closeAll source.endPosition).tree source) := by
  have hend (s : State) : (do
        if !s.outer.isEmpty && !lenient then throw (.unclosedBlock s.block.start)
        let s := s.closeAll source.endPosition
        return tree source s : Except ParseError (Tree Node)) =
      if !s.outer.isEmpty && !lenient then .error (.unclosedBlock s.block.start)
      else .ok ((s.closeAll source.endPosition).tree source) := by
    cases !s.outer.isEmpty && !lenient <;> rfl
  unfold finish
  simp only [← hend]
  cases s.buffer.isEmpty <;> rfl

private theorem endsLast_iff :
    (if s.buffer.isEmpty then .ok s else s.endStatement lenient none) = .ok s' ↔
      s.EndsLast lenient s' := by
  by_cases hbuffer : s.buffer = []
  · rw [if_pos (by simpa using hbuffer)]
    constructor
    · intro h
      cases h
      exact .nothing hbuffer
    · intro h
      cases h with
      | nothing => rfl
      | statement hne => exact absurd hbuffer hne
  · rw [if_neg (by simpa using hbuffer), endStatement_eq_ok_iff hbuffer]
    constructor
    · exact .statement hbuffer
    · intro h
      cases h with
      | nothing hnil => exact absurd hnil hbuffer
      | statement _ hends => exact hends

/-- **What closing a block keeps** is kept by closing all of them.  Then only the root is open. -/
theorem closeAll_keeps {P : State → Prop} (stop : Position) (hs : P s)
    (hclose : ∀ s : State, P s → s.outer ≠ [] → P (s.close stop)) :
    P (s.closeAll stop) ∧ (s.closeAll stop).outer = [] := by
  unfold closeAll
  generalize hblocks : s.outer = blocks
  have hlength : s.outer.length = blocks.length := by rw [hblocks]
  clear hblocks
  induction blocks generalizing s with
  | nil => exact ⟨hs, by simpa using hlength⟩
  | cons b blocks ih =>
    have houter : s.outer ≠ [] := by
      intro hnil
      simp [hnil] at hlength
    obtain ⟨parent, outer, hcons⟩ := List.exists_cons_of_ne_nil houter
    rw [List.foldl_cons]
    refine ih (hclose s hs houter) ?_
    rw [close_eq hcons]
    simpa [hcons] using hlength

/-- **The end of the source** ends the last statement; then no block may be open, unless the parse
is lenient. -/
theorem finish_eq_ok_iff {source : Source} {t : Tree Node} :
    s.finish source lenient = .ok t ↔
      ∃ s', s.EndsLast lenient s' ∧ (s'.outer = [] ∨ lenient = true) ∧
        t = (s'.closeAll source.endPosition).tree source := by
  rw [finish_eq_bind]
  simp only [← endsLast_iff]
  cases (if s.buffer.isEmpty then .ok s else s.endStatement lenient none) with
  | error e => simp [Except.bind]
  | ok s₁ => cases houter : s₁.outer <;> cases lenient <;> simp [Except.bind, houter, eq_comm]

end Parse.State

/-- **A parse is a run** over the tokens, followed by the end of the source. -/
theorem parse_eq_ok_iff {source : Source} {lenient : Bool} {tree : Tree Node} :
    parse source lenient = .ok tree ↔
      (tokenize source lenient).failure = none ∧
        ∃ s, Parse.State.Runs lenient .start (tokenize source lenient).tokens s ∧
          s.finish source lenient = .ok tree := by
  unfold parse Parse.State.Runs
  cases hrun : (tokenize source lenient).tokens.foldlM (Parse.State.step lenient) .start with
  | error e => simp [bind, Except.bind, hrun]
  | ok s =>
    cases hfailure : (tokenize source lenient).failure <;>
      simp [bind, Except.bind, throw, throwThe, MonadExceptOf.throw, hfailure, hrun]

end LosslessCss
