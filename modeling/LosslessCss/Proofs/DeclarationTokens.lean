import LosslessCss.Proofs.FieldEdits
import LosslessCss.Proofs.ParsedNodes

/-!
# The tokens of a declaration

A declaration records texts, but it was made from tokens, and questions about its value are often
questions about these: where a string ends, or which word stands last.  The tokens of a declaration
are found again by its place.  They are the run of tokens that starts there, up to the first one
that does not go on with a statement (`Statement.runAt`), and what the declaration records is what
this run is taken apart into (`declaredIn_of_parse`).

The reason is an invariant of the parse, as for all that is made during one: a declaration is made
when its run ends, and it is not touched later.

## Main Definitions

* `Statement.runAt` : the tokens of the statement at a place
* `Statement.valueTokens` : the tokens of its value
* `Node.DeclaredIn` : a declaration and the run that it was made from
* `Node.ValueStands` : its value among the tokens of the source

## Main Statements

* `declaredIn_of_parse`
* `valueStands_of_parse` : the value as the lexical grammar reads it, and where it stands
-/

namespace LosslessCss

open Parse (State Block)

/-! ### Statements in the tokens of a source -/

/-- The tokens at the front that go on with a statement in which `depth` parentheses and brackets
are open. -/
def Statement.reach (depth : Nat) : List Token → List Token
  | [] => []
  | t :: ts =>
    if t.kind.continuesStatement depth then t :: reach (t.kind.depthBehind depth) ts else []

/-- **The tokens of the statement at a place.** -/
def Statement.runAt (tokens : List Token) (start : Position) : List Token :=
  reach 0 (tokens.dropWhile (·.start != start))

/-- **The tokens of the value of a declaration**: those behind its first colon, without trivia in
front and without blank space at the end. -/
def Statement.valueTokens (run : List Token) : List Token :=
  (((content run).dropWhile (·.kind != .colon)).drop 1).dropWhile Token.isTrivia

/-- A run is what can be reached up to the token that ends it. -/
theorem Statement.reach_append {run after : List Token} {depth depth' : Nat}
    (hdepth : depth? depth (run.map Token.kind) = some depth')
    (hends : ∀ t ∈ after.head?, t.kind.continuesStatement depth' = false) :
    reach depth (run ++ after) = run := by
  induction run generalizing depth with
  | nil =>
    obtain rfl : depth = depth' := by simpa [depth?] using hdepth
    cases after with
    | nil => rfl
    | cons t after => simp [reach, hends t rfl]
  | cons t run ih =>
    have hcontinues : t.kind.continuesStatement depth = true := by
      by_contra hstop
      simp [depth?, hstop] at hdepth
    rw [List.map_cons, depth?, if_pos hcontinues] at hdepth
    rw [List.cons_append, reach, if_pos hcontinues, ih hdepth]

/-- **A run is found at the place of its first token.** -/
theorem Token.Cover.runAt_eq {source : Source} {before run after : List Token} {first : Token}
    {depth : Nat} (h : Cover source (before ++ (run ++ after))) (hfirst : first ∈ run.head?)
    (hrun : Statement.IsRun run depth) (hends : ∀ t ∈ after.head?, Statement.Terminates t depth) :
    Statement.runAt (before ++ (run ++ after)) first.start = run := by
  obtain ⟨others, rfl⟩ := List.head?_eq_some_iff.mp hfirst
  have hbehind : (before ++ first :: (others ++ after)).dropWhile (·.start != first.start) =
      first :: (others ++ after) := h.dropWhile_start
  rw [Statement.runAt, List.cons_append, hbehind, ← List.cons_append]
  exact Statement.reach_append hrun.depth fun t ht => (hends t ht).continuesStatement

/-- **A declaration was made from a run of the tokens**, at a place where a statement can start. -/
inductive Node.DeclaredIn (tokens : List Token) (n : Node) : Prop
  | intro {before run after : List Token} {first : Token} {depth : Nat} {stop : Position}
      {parts : DeclarationParts} (htokens : tokens = before ++ (run ++ after))
      (hbefore : Statement.Between before) (hfirst : first ∈ run.head?)
      (hrun : Statement.IsRun run depth)
      (hends : ∀ t ∈ after.head?, Statement.Terminates t depth)
      (hspan : n.span = some ⟨first.span.source, first.start, stop⟩)
      (hparts : DeclarationParts.ofTokens (Statement.content run) = .ok parts)
      (hcontent :
        n.content = .declaration parts.property parts.value parts.important.isSome)
      (hbetween : n.raws.between = some parts.between)

/-! ### Making declarations -/

namespace Parse.State

variable {s s' : State} {t : Token} {ts us tokens : List Token}

/-- **The declarations made so far** were made from runs of the tokens; open blocks are none. -/
structure Declared (tokens : List Token) (s : State) : Prop where
  heads : ∀ b ∈ s.block :: s.outer, b.node.content.isDeclaration = false
  nodes : ∀ b ∈ s.block :: s.outer, ∀ n ∈ (Forest.ofLatestFirst b.children).preorder,
    n.content.isDeclaration = true → n.DeclaredIn tokens

theorem start_declared : start.Declared tokens where
  heads := by simp [start, Content.isDeclaration]
  nodes := by simp [start, Forest.preorder]

theorem Declared.of_blocks (hs : s.Declared tokens) (hblock : s'.block = s.block)
    (houter : s'.outer = s.outer) : s'.Declared tokens := by
  refine ⟨?_, ?_⟩ <;> rw [hblock, houter]
  · exact hs.heads
  · exact hs.nodes

/-- **One more tree** in the current block. -/
theorem Declared.snoc {b : Block} {outer : List Block} {n : Node} {children : Forest Node}
    (hheads : ∀ a ∈ b :: outer, a.node.content.isDeclaration = false)
    (hnodes : ∀ a ∈ b :: outer, ∀ n ∈ (Forest.ofLatestFirst a.children).preorder,
      n.content.isDeclaration = true → n.DeclaredIn tokens)
    (hn : n.content.isDeclaration = true → n.DeclaredIn tokens)
    (hchildren : ∀ n ∈ children.preorder, n.content.isDeclaration = true → n.DeclaredIn tokens)
    (hblock : s.block = { b with children := ⟨n, children⟩ :: b.children })
    (houter : s.outer = outer) : s.Declared tokens := by
  subst houter
  obtain ⟨hhead, hheads⟩ := List.forall_mem_cons.mp hheads
  obtain ⟨hnode, hnodes⟩ := List.forall_mem_cons.mp hnodes
  refine ⟨?_, ?_⟩ <;> rw [hblock]
  · exact List.forall_mem_cons.mpr ⟨hhead, hheads⟩
  · exact List.forall_mem_cons.mpr
      ⟨(Forest.forall_mem_preorder_snoc _ _).mpr ⟨hnode, hn, hchildren⟩, hnodes⟩

theorem Declared.attach (hs : s.Declared tokens) {n : Node}
    (hn : n.content.isDeclaration = true → (s.placed n).DeclaredIn tokens) :
    (s.attach n).Declared tokens :=
  .snoc hs.heads hs.nodes hn (by simp [Forest.preorder]) rfl rfl

/-- **The end of a statement** makes a declaration from the run that was collected. -/
theorem Ends.declared {semicolon? : Option Token} (hs : s.Declared (ts ++ us)) (hat : At ts s)
    (hends : ∀ t ∈ us.head?, Statement.Terminates t s.depth) (h : s.Ends false semicolon? s') :
    s'.Declared (ts ++ us) := by
  cases h with
  | @atRule first others hrun hkind =>
    refine Declared.of_blocks
      (hs.attach (n := { Statement.atRule (first :: others) _ with span := _ }) ?_) rfl rfl
    intro hdeclaration
    cases hdeclaration
  | @declaration first others parts hrun hkind hparts =>
    refine Declared.of_blocks (hs.attach (n := { Statement.declaration parts _ with span := _ })
      fun _ => ?_) rfl rfl
    obtain ⟨before, hcut, hbefore⟩ := hat.cut
    have hbuffer := hat.run
    rw [hrun] at hcut hbuffer
    exact .intro (by rw [hcut, List.append_assoc]) hbefore rfl hbuffer hends rfl hparts rfl rfl
  | kept hlenient => cases hlenient

theorem Declared.openBlock (hs : s.Declared tokens) (brace : Token) :
    (s.openBlock brace).Declared tokens := by
  rw [openBlock_eq_block]
  refine ⟨?_, ?_⟩
  · intro b hb
    rcases List.mem_cons.mp hb with rfl | hb
    · have hopens := Statement.block_opensBlock s.buffer.reverse
      simp only [placed]
      generalize (Statement.block s.buffer.reverse).content = c at hopens
      cases c <;> first | rfl | cases hopens
    · exact hs.heads b hb
  · intro b hb
    rcases List.mem_cons.mp hb with rfl | hb
    · simp [Forest.preorder]
    · exact hs.nodes b hb

/-- **The end of a block** leaves the declarations in it as they are. -/
theorem Declared.close (hs : s.Declared tokens) (houter : s.outer ≠ []) (stop : Position) :
    (s.close stop).Declared tokens := by
  obtain ⟨parent, outer, hcons⟩ := List.exists_cons_of_ne_nil houter
  obtain ⟨hheads, hnodes⟩ := hs
  rw [hcons] at hheads hnodes
  have hhead := hheads s.block List.mem_cons_self
  rw [close_eq hcons]
  refine .snoc (fun b hb => hheads b (List.mem_cons_of_mem _ hb))
    (fun b hb => hnodes b (List.mem_cons_of_mem _ hb)) (fun hdeclaration => ?_)
    (hnodes s.block List.mem_cons_self) rfl rfl
  rw [closedNode_content, hhead] at hdeclaration
  cases hdeclaration

/-- **One token** makes declarations as they should be. -/
theorem Steps.declared (hs : s.Declared (ts ++ t :: us)) (hat : At ts s)
    (h : s.Steps false t s') : s'.Declared (ts ++ t :: us) := by
  cases h with
  | gap | first | more => exact hs.of_blocks rfl rfl
  | comment =>
    refine hs.attach fun hdeclaration => ?_
    cases hdeclaration
  | openBlock => exact hs.openBlock t
  | close _ _ houter => exact hs.close houter _
  | semicolon _ hkind hdepth hends =>
    exact hends.declared hs hat (by simpa using .inl ⟨hkind, hdepth⟩)
  | endClose _ hkind houter hends =>
    exact (hends.declared hs hat (by simpa using .inr hkind)).close
      (by rwa [hends.frame.2.2.1]) _
  | stray hlenient | endStray hlenient => cases hlenient

/-- **A run** makes declarations as they should be. -/
theorem Runs.declared (h : Runs false start ts s) : s.Declared (ts ++ us) := by
  induction ts using List.reverseRecOn generalizing s us with
  | nil =>
    obtain rfl := runs_nil.mp h
    exact start_declared
  | append_singleton ts t ih =>
    obtain ⟨s₁, hrun, hstep⟩ := runs_snoc.mp h
    rw [List.append_assoc, List.singleton_append]
    exact hstep.declared (ih hrun) hrun.at

end Parse.State

/-- **Every declaration of a strict parse** was made from a run of the tokens. -/
theorem declaredIn_of_parse {source : Source} {t : Tree Node} (h : parse source false = .ok t)
    {n : Node} (hn : n ∈ t.preorder) (hdeclaration : n.content.isDeclaration = true) :
    n.DeclaredIn (tokenize source false).tokens := by
  obtain ⟨-, s, hrun, hfinish⟩ := parse_eq_ok_iff.mp h
  obtain ⟨s₁, hlast, -, rfl⟩ := Parse.State.finish_eq_ok_iff.mp hfinish
  have hs : s.Declared ((tokenize source false).tokens ++ []) := hrun.declared
  have hs₁ : s₁.Declared ((tokenize source false).tokens ++ []) := by
    cases hlast with
    | nothing => exact hs
    | statement _ hends => exact hends.declared hs hrun.at (by simp)
  rw [List.append_nil] at hs₁
  obtain ⟨hall, -⟩ := Parse.State.closeAll_keeps source.endPosition hs₁
    fun _ hs houter => hs.close houter _
  rcases List.mem_cons.mp hn with rfl | hn
  · have hhead := hall.heads _ List.mem_cons_self
    cases hhead.symm.trans hdeclaration
  · exact hall.nodes _ List.mem_cons_self n hn hdeclaration

/-! ### Values -/

/-- **The value of a declaration among the tokens of a source**: `front` are the tokens up to it,
the colon included, and `behind` starts where its statement ends. -/
structure Node.ValueStands (source : Source) (n : Node) (front value behind : List Token) :
    Prop where
  tokens : (tokenize source false).tokens = front ++ (value ++ behind)
  opens : Lexes .plain (Token.concat front).toList (Token.concat (value ++ behind)).toList
    (front.map Token.lexeme) .plain
  lexes : ∃ last, Lexes .plain (Token.concat value).toList (Token.concat behind).toList
    (value.map Token.lexeme) last
  starts : ∀ t ∈ value.head?, t.isTrivia = false
  ends : ∀ t ∈ value.getLast?, t.isSpace = false
  stops : Token.Stops (Token.concat behind).toList
  content : ∃ property, n.content = .declaration property
    (String.ofList (splitImportant (Token.concat value).toList).1)
    (splitImportant (Token.concat value).toList).2.isSome
  range : n.range? .value = some ((Token.concat front).utf8ByteSize,
    (Token.concat front).utf8ByteSize +
      (String.ofList (splitImportant (Token.concat value).toList).1).utf8ByteSize)

/-- Blank space, and what ends a statement without a block, stop what stands in front. -/
theorem Statement.stops_gap {gap after : List Token} {depth : Nat}
    (hspells : ∀ t ∈ gap ++ after, t.kind.Spells t.text.toList)
    (hnonempty : ∀ t ∈ gap ++ after, t.text ≠ "") (hgap : ∀ t ∈ gap, t.isSpace = true)
    (hends : ∀ t ∈ after.head?, Terminates t depth) :
    Token.Stops (Token.concat (gap ++ after)).toList := by
  cases gap with
  | cons t gap =>
    have hkind : t.kind = .space := by simpa [Token.isSpace] using hgap t List.mem_cons_self
    have hblank := hspells t (by simp)
    rw [hkind] at hblank
    obtain ⟨c, cs, htext⟩ := List.exists_cons_of_ne_nil
      (mt String.toList_eq_nil_iff.mp (hnonempty t (by simp)))
    rw [List.cons_append, Token.concat_cons, String.toList_append, htext]
    exact Token.stops_cons_of_isBlank _ (hblank c (by simp [htext]))
  | nil =>
    cases after with
    | nil => exact Token.stops_nil
    | cons t after =>
      have htext (hkind : t.kind = .semicolon ∨ t.kind = .braceClose) :
          t.text = ";" ∨ t.text = "\x7d" := by
        have hspell := hspells t (by simp)
        rcases hkind with hkind | hkind <;> rw [hkind] at hspell
        · exact .inl (String.toList_inj.mp hspell)
        · exact .inr (String.toList_inj.mp hspell)
      rw [List.nil_append, Token.concat_cons, String.toList_append]
      rcases htext ((hends t rfl).imp_left And.left) with h | h <;> rw [h] <;>
        simp [Token.Stops]

/-- Behind a token that is neither a word nor an opening parenthesis the past is forgotten. -/
theorem Lexes.last_eq_plain {mode last : Token.Mode} {cs rest : List Char} {ls : List Lexeme}
    {l : Lexeme} (h : Lexes mode cs rest (ls ++ [l]) last) (hparen : l.kind ≠ .parenOpen)
    (hword : l.kind ≠ .word) : last = .plain := by
  obtain ⟨cs₁, cs₂, middle, -, -, hlast⟩ := h.exists_of_append
  cases hlast with
  | cons _ htail =>
    cases htail
    exact Token.Mode.after_eq_plain _ _ _ hparen hword

/-- **Behind a token that is neither a word nor an opening parenthesis** tokens are read anew. -/
theorem Lexes.cut_behind {text ahead : List Char} {front rest : List Token} {last : Token.Mode}
    (h : Lexes .plain text ahead ((front ++ rest).map Token.lexeme) last)
    (hfront : ∀ t ∈ front.getLast?, t.kind ≠ .parenOpen ∧ t.kind ≠ .word) :
    Lexes .plain (Token.concat front).toList ((Token.concat rest).toList ++ ahead)
        (front.map Token.lexeme) .plain ∧
      Lexes .plain (Token.concat rest).toList ahead (rest.map Token.lexeme) last := by
  rw [List.map_append] at h
  obtain ⟨cs₁, cs₂, middle, -, hfrontLexes, hrest⟩ := h.exists_of_append
  obtain rfl : middle = .plain := by
    rcases List.eq_nil_or_concat' front with rfl | ⟨ts, t, rfl⟩
    · cases hfrontLexes
      rfl
    · obtain ⟨hparen, hword⟩ := hfront t (by simp)
      rw [List.map_append, List.map_singleton] at hfrontLexes
      exact hfrontLexes.last_eq_plain hparen hword
  rw [Token.toList_concat, Token.toList_concat, hfrontLexes.concat_eq, hrest.concat_eq]
  exact ⟨hfrontLexes, hrest⟩

/-- In front of a statement stands no word and no opening parenthesis. -/
theorem Statement.Between.kind_ne {before : List Token} (h : Between before) :
    ∀ t ∈ before.getLast?, t.kind ≠ .parenOpen ∧ t.kind ≠ .word := by
  cases h with
  | nil => simp
  | trivia _ htrivia =>
    intro t ht
    obtain rfl := (by simpa using ht : _ = t)
    rw [Token.isTrivia] at htrivia
    constructor <;> intro hkind <;> rw [hkind] at htrivia <;> cases htrivia
  | ended _ _ hends =>
    intro t ht
    obtain rfl := (by simpa using ht : _ = t)
    constructor <;> intro hkind <;> rw [hkind] at hends <;> cases hends

/-- Behind a colon and trivia tokens are read anew. -/
theorem Lexes.cut_behind_colon {text ahead : List Char} {front trivia rest : List Token}
    {colon : Token} {last : Token.Mode}
    (h : Lexes .plain text ahead ((front ++ colon :: trivia ++ rest).map Token.lexeme) last)
    (hcolon : colon.kind = .colon) (htrivia : ∀ t ∈ trivia, t.isTrivia = true) :
    Lexes .plain (Token.concat (front ++ colon :: trivia)).toList
        ((Token.concat rest).toList ++ ahead) ((front ++ colon :: trivia).map Token.lexeme) .plain ∧
      Lexes .plain (Token.concat rest).toList ahead (rest.map Token.lexeme) last := by
  refine h.cut_behind fun t ht => ?_
  have hkind : t.kind = .colon ∨ t.isTrivia = true := by
    rcases List.eq_nil_or_concat' trivia with rfl | ⟨gap, u, rfl⟩
    · obtain rfl : colon = t := by simpa using ht
      exact .inl hcolon
    · obtain rfl : u = t := by simpa [List.getLast?_append, List.getLast?_cons] using ht
      exact .inr (htrivia u (by simp))
  rw [Token.isTrivia] at hkind
  constructor <;> rintro heq <;> simp [heq, Token.Kind.isTrivia] at hkind

/-- **A run that is taken apart** at its colon: the tokens of the value are those behind the trivia
that follows the colon. -/
theorem Statement.valueTokens_eq {run head back : List Token} {colon : Token}
    (hcut : content run = head ++ colon :: back) (hhead : ∀ t ∈ head, t.kind ≠ .colon)
    (hcolon : colon.kind = .colon) : valueTokens run = back.dropWhile Token.isTrivia := by
  have hother : ∀ t ∈ head, (t.kind != .colon) = true := fun t ht => by simpa using hhead t ht
  rw [valueTokens, hcut, List.dropWhile_append_of_pos hother,
    List.dropWhile_cons_of_neg (by simp [hcolon])]
  rfl

/-- The tokens of a value start with no trivia. -/
theorem Statement.head?_valueTokens {run : List Token} :
    ∀ t ∈ (valueTokens run).head?, t.isTrivia = false := by
  intro t ht
  have hstop := List.head?_dropWhile_not Token.isTrivia
    (((content run).dropWhile (·.kind != .colon)).drop 1)
  rw [show ((content run).dropWhile _ |>.drop 1).dropWhile _ = valueTokens run from rfl,
    ht] at hstop
  simpa using hstop

/-- The tokens of a value end with no blank space. -/
theorem Statement.getLast?_valueTokens {run : List Token} :
    ∀ t ∈ (valueTokens run).getLast?, t.isSpace = false := by
  intro t ht
  refine dropTrailing_eq_self_iff.mp (dropTrailing_dropTrailing (p := Token.isSpace) run) t ?_
  have hsuffix : valueTokens run <:+ content run :=
    (List.dropWhile_suffix _).trans ((List.drop_suffix _ _).trans (List.dropWhile_suffix _))
  obtain ⟨front, hfront⟩ := hsuffix
  rw [show dropTrailing Token.isSpace run = content run from rfl, ← hfront,
    List.getLast?_append, Option.mem_def.mp ht]
  rfl

/-- **The value of a declaration stands among the tokens** of the run that it was made from. -/
theorem Node.DeclaredIn.exists_valueStands {source : Source} {n : Node}
    (hfailure : (tokenize source false).failure = none)
    (h : n.DeclaredIn (tokenize source false).tokens) :
    ∃ span front behind, n.span = some span ∧ n.ValueStands source front
      (Statement.valueTokens (Statement.runAt (tokenize source false).tokens span.start))
      behind := by
  have hcover := tokenize_cover hfailure
  obtain ⟨last, hlexes⟩ := (Reader.ofSource_fresh source false).lexes_of_drain rfl hfailure
  obtain ⟨htokens, -, hfirst, hrun, hends, hspan, hparts, hcontent, hbetween⟩ := h
  rename_i before run after first depth stop parts
  obtain ⟨head, colon, back, hcut, hhead, hcolon, -, rfl⟩ :=
    DeclarationParts.ofTokens_eq_ok_iff.mp hparts
  have hvalue := Statement.valueTokens_eq hcut hhead hcolon
  set value := Statement.valueTokens run with hvalueDef
  set trivia := back.takeWhile Token.isTrivia with htrivia
  set gap := Statement.gap run with hgap
  set front := before ++ head ++ colon :: trivia with hfront
  have hwhole : before ++ (run ++ after) = front ++ (value ++ (gap ++ after)) := by
    have hrun' : run = head ++ colon :: back ++ gap := by
      rw [← hcut, hgap, Statement.content, Statement.gap, dropTrailing_append_takeTrailing]
    have hback : back = trivia ++ value := by rw [hvalue, List.takeWhile_append_dropWhile]
    rw [hrun', hback, hfront]
    simp
  rw [htokens] at hcover
  have hrunAt := hcover.runAt_eq hfirst hrun hends
  have hstart := hcover.start_eq hfirst
  rw [hwhole] at hcover
  have hlexes' : Lexes .plain source.text.toList []
      ((front ++ (value ++ (gap ++ after))).map Token.lexeme) last := by
    rw [← hwhole, ← htokens]
    exact hlexes
  obtain ⟨hopens, hvalueLexes⟩ :=
    hlexes'.cut_behind_colon hcolon fun t ht => List.mem_takeWhile_imp ht
  set split := splitImportant (Token.concat value).toList with hsplit
  have hcontent' : n.content = .declaration (DeclarationParts.ofHalves head colon back).property
      (String.ofList split.1) split.2.isSome := by
    rw [hcontent, hsplit, hvalue]
    simp [DeclarationParts.ofHalves]
  refine ⟨_, front, gap ++ after, hspan, ?_⟩
  rw [htokens, hrunAt, ← hvalueDef]
  have hmember {t : Token} (ht : t ∈ gap ++ after) : t ∈ front ++ (value ++ (gap ++ after)) :=
    List.mem_append_right _ (List.mem_append_right _ ht)
  rw [List.append_nil] at hopens
  refine ⟨htokens.trans hwhole, hopens, ?_, Statement.head?_valueTokens,
    Statement.getLast?_valueTokens, Statement.stops_gap (fun t ht => hcover.spells t (hmember ht))
      (fun t ht => hcover.nonempty t (hmember ht)) (fun t ht => of_mem_takeTrailing ht) hends,
    ⟨_, hcontent'⟩, ?_⟩
  · rw [List.map_append] at hvalueLexes
    obtain ⟨_, _, middle, -, hvalueLexes, hbehindLexes⟩ := hvalueLexes.exists_of_append
    rw [Token.toList_concat, Token.toList_concat, hvalueLexes.concat_eq, hbehindLexes.concat_eq]
    exact ⟨middle, by simpa using hvalueLexes⟩
  · have hsize : (Token.concat front).utf8ByteSize = first.start.offset +
        ((DeclarationParts.ofHalves head colon back).property ++
          (DeclarationParts.ofHalves head colon back).between).utf8ByteSize := by
      rw [hstart, Position.advance_offset, Position.start_offset, Nat.zero_add, hfront,
        Token.concat_append, Token.concat_append, Token.concat_cons,
        ← Statement.concat_content_append_gap head]
      simp [DeclarationParts.ofHalves, ← htrivia, Nat.add_assoc]
    simp [Node.range?, hspan, hcontent', Content.field?, Node.inFrontOf?, hbetween, hsize, ← hsplit]

/-- **The value of every declaration of a strict parse** stands among the tokens. -/
theorem valueStands_of_parse {source : Source} {t : Tree Node} (h : parse source false = .ok t)
    {n : Node} (hn : n ∈ t.preorder) (hdeclaration : n.content.isDeclaration = true) :
    ∃ span front behind, n.span = some span ∧ n.ValueStands source front
      (Statement.valueTokens (Statement.runAt (tokenize source false).tokens span.start))
      behind :=
  (declaredIn_of_parse h hn hdeclaration).exists_valueStands (parse_eq_ok_iff.mp h).1

end LosslessCss
