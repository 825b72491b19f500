import LosslessCss.Proofs.Grammar

/-!
# The grammar is accepted

Each text of the grammar is accepted by a strict parse, and the tree has the shape that the grammar
gives it (`parse_of_reads`).  The proof follows a derivation: reading its tokens from a state
between two statements goes on like reading the tokens behind it from another such state
(`Parse.State.Reaches`).

The one delicate case is the last statement of a block.  Nothing marks its end, so the parse still
collects it while it reads the blank space in front of the closing brace.  A state that collects a
finished statement and the state in which that statement is done read such a rest alike
(`Parse.State.Idle.exists_reaches_last`).

## Main Definitions

* `Parse.State.read` : what is left of a strict parse
* `Parse.State.Reaches`

## Main Statements

* `parse_of_reads`
-/

namespace LosslessCss

open Token (Mode Scans)

/-! ### Pieces of text -/

/-- Outside an address the mode does not matter to the next token. -/
theorem Token.Scans.of_mode {c : Char} {cs : List Char} {mode mode' : Mode} {kind : Token.Kind}
    {n : Nat} (h : Scans c cs mode kind n) (hmode : mode ≠ .address) (hmode' : mode' ≠ .address) :
    Scans c cs mode' kind n := by
  cases h with
  | address => contradiction
  | space _ hblank => exact .space hmode' hblank
  | punctuation _ hkind => exact .punctuation hmode' hkind
  | string _ hquote hreach => exact .string hmode' hquote hreach
  | atWord _ hat => exact .atWord hmode' hat
  | comment _ hslash hstar hreach => exact .comment hmode' hslash hstar hreach
  | word _ hstart => exact .word hmode' hstart

namespace Lexes

variable {mode mode' last : Mode} {cs rest : List Char} {ls : List Lexeme}

/-- A text that does not start with a parenthesis is read alike outside an address. -/
theorem of_mode (h : Lexes mode cs rest ls last) (hmode : mode ≠ .address)
    (hmode' : mode' ≠ .address) (hparen : cs.head? ≠ some '(') :
    ∃ last', Lexes mode' cs rest ls last' := by
  cases h with
  | nil => exact ⟨_, .nil _ _⟩
  | @cons _ _ kind c text cs _ _ hscan htail =>
    have hkind : kind ≠ .parenOpen := by
      rintro rfl
      exact hparen (by rw [hscan.kind_eq_parenOpen]; rfl)
    have hafter : mode'.after kind (c :: text) (cs ++ rest) =
        mode.after kind (c :: text) (cs ++ rest) := by
      simp [Mode.after, hkind]
    exact ⟨last, .cons (hscan.of_mode hmode hmode') (by rwa [hafter])⟩

/-- Punctuation in front of a text. -/
theorem punctuation {c : Char} {kind : Token.Kind} (hmode : mode ≠ .address)
    (hkind : Token.punctuation? c = some kind) (hparen : kind ≠ .parenOpen)
    (h : Lexes .plain cs rest ls last) : Lexes mode (c :: cs) rest (⟨kind, [c]⟩ :: ls) last := by
  have hafter := Mode.after_eq_plain mode [c] (cs ++ rest) hparen (Token.kind_of_punctuation? hkind).1
  have hscan : Scans c ([] ++ (cs ++ rest)) mode kind ([] : List Char).length :=
    .punctuation hmode hkind
  exact .cons hscan (by rwa [hafter])

/-- A comment in front of a text. -/
theorem comment {inner : List Char}
    (hinner : Token.commentTail (inner ++ ['*', '/']) = some (inner.length + 2))
    (h : Lexes .plain cs rest ls last) :
    Lexes .plain ('/' :: '*' :: (inner ++ ['*', '/'] ++ cs)) rest
      (⟨.comment, '/' :: '*' :: (inner ++ ['*', '/'])⟩ :: ls) last := by
  have hreach : Token.commentTail (inner ++ ['*', '/'] ++ (cs ++ rest)) =
      some (inner.length + 2) :=
    (Token.commentTail_append_iff (by simp)).mpr hinner
  have hscan : Scans '/' ('*' :: (inner ++ ['*', '/']) ++ (cs ++ rest)) .plain .comment
      ('*' :: (inner ++ ['*', '/'])).length := by
    simpa using Scans.comment (by simp) rfl rfl hreach
  have hafter := Mode.after_eq_plain .plain ('/' :: '*' :: (inner ++ ['*', '/'])) (cs ++ rest)
    (show Token.Kind.comment ≠ .parenOpen by simp) (by simp)
  exact .cons hscan (by rwa [hafter])

/-- Blank space is read as blank space. -/
theorem exists_blank (hmode : mode ≠ .address) (hblank : ∀ c ∈ cs, Token.isBlank c = true)
    (hrest : ∀ c ∈ rest.head?, Token.isBlank c = false) :
    ∃ ls last, last ≠ .address ∧ Lexes mode cs rest ls last ∧ ∀ l ∈ ls, l.kind = .space := by
  cases cs with
  | nil => exact ⟨[], mode, hmode, .nil _ _, by simp⟩
  | cons c cs =>
    have hreach : ((cs ++ rest).takeWhile Token.isBlank).length = cs.length :=
      Token.length_takeWhile_append_iff.mpr
        ⟨fun d hd => hblank d (List.mem_cons_of_mem _ hd), hrest⟩
    have hscan : Scans c (cs ++ ([] ++ rest)) mode .space cs.length := by
      rw [← hreach]
      exact .space hmode (hblank c List.mem_cons_self)
    have hafter := Mode.after_eq_plain mode (c :: cs) ([] ++ rest)
      (show Token.Kind.space ≠ .parenOpen by simp) (by simp)
    refine ⟨[⟨.space, c :: cs⟩], .plain, by simp, ?_, by simp⟩
    simpa using Lexes.cons hscan (by rw [hafter]; exact .nil _ _)

/-- A blank character in front of a text starts a token or is the first of one. -/
theorem cons_blank {c : Char} (hc : Token.isBlank c = true) (h : Lexes .plain cs [] ls last) :
    Lexes .plain (c :: cs) [] (⟨.space, [c]⟩ :: ls) last ∨
      ∃ text ls₀, ls = ⟨.space, text⟩ :: ls₀ ∧ (∀ d ∈ text.head?, Token.isBlank d = true) ∧
        text ≠ [] ∧ Lexes .plain (c :: cs) [] (⟨.space, c :: text⟩ :: ls₀) last := by
  by_cases hhead : ∀ d ∈ cs.head?, Token.isBlank d = false
  · have hreach : (([] ++ (cs ++ [])).takeWhile Token.isBlank).length = ([] : List Char).length :=
      Token.length_takeWhile_append_iff.mpr ⟨by simp, by simpa using hhead⟩
    have hscan : Scans c ([] ++ (cs ++ [])) .plain .space ([] : List Char).length := by
      rw [← hreach]
      exact .space (by simp) hc
    have hafter := Mode.after_eq_plain .plain [c] (cs ++ [])
      (show Token.Kind.space ≠ .parenOpen by simp) (by simp)
    exact .inl (.cons hscan (by rwa [hafter]))
  · cases h with
    | nil => simp at hhead
    | @cons _ _ kind d text cs _ ls₀ hscan htail =>
      have hd : Token.isBlank d = true := by simpa using hhead
      obtain ⟨rfl, hlength⟩ := hscan.unique (.space (by simp) hd)
      rw [Mode.after_eq_plain _ _ _ (by simp) (by simp)] at htail
      refine .inr ⟨d :: text, ls₀, rfl, by simpa using hd, by simp, ?_⟩
      have hreach : ((d :: text ++ (cs ++ [])).takeWhile Token.isBlank).length =
          (d :: text).length := by
        rw [List.cons_append, List.takeWhile_cons_of_pos hd, List.length_cons, List.length_cons,
          ← hlength]
      have hscan' : Scans c (d :: text ++ (cs ++ [])) .plain .space (d :: text).length := by
        rw [← hreach]
        exact .space (by simp) hc
      have hafter := Mode.after_eq_plain .plain (c :: d :: text) (cs ++ [])
        (show Token.Kind.space ≠ .parenOpen by simp) (by simp)
      exact .cons hscan' (by rwa [hafter])

end Lexes

/-- A run, blank space and punctuation in front of a text. -/
theorem Statement.Stands.exists_lexes {run : List Token} {depth : Nat} {text gap cs : List Char}
    {d : Char} (hstands : Stands run depth text (gap ++ d :: cs))
    (hgap : ∀ c ∈ gap, Token.isBlank c = true) {kind : Token.Kind}
    (hkind : Token.punctuation? d = some kind) (hparen : kind ≠ .parenOpen) {ls : List Lexeme}
    {last : Mode} (hcs : Lexes .plain cs [] ls last) :
    ∃ gaps, (∀ l ∈ gaps, l.kind = .space) ∧
      Lexes .plain (text ++ (gap ++ d :: cs)) []
        (run.map Token.lexeme ++ (gaps ++ ⟨kind, [d]⟩ :: ls)) last := by
  obtain ⟨behind, hbehind, htext⟩ := hstands.lexes
  have hd : ∀ c ∈ (d :: cs).head?, Token.isBlank c = false := by
    simpa using Token.isBlank_of_punctuation? hkind
  obtain ⟨gaps, middle, hmiddle, hgaps, hspace⟩ :=
    Lexes.exists_blank hbehind hgap hd
  have hrest := hcs.punctuation hmiddle hkind hparen
  rw [← List.append_nil (d :: cs)] at hgaps
  have hall := hgaps.append hrest
  rw [← List.append_nil (gap ++ d :: cs)] at htext
  exact ⟨gaps, hspace, htext.append hall⟩

/-- Tokens of blank space are blank space. -/
theorem Token.isSpace_of_map_lexeme {gap : List Token} {gaps : List Lexeme}
    (h : gap.map lexeme = gaps) (hgaps : ∀ l ∈ gaps, l.kind = .space) :
    ∀ t ∈ gap, t.isSpace = true := by
  intro t ht
  subst h
  simpa [isSpace, lexeme] using hgaps _ (List.mem_map_of_mem ht)

/-- **Behind the last statement of a block** there is blank space, and then the closing brace or
nothing. -/
theorem Token.EndsBlock.exists_gap {cs : List Char} (hends : EndsBlock cs) {ts : List Token}
    {mode last : Mode} (hmode : mode ≠ .address)
    (h : Lexes mode cs [] (ts.map Token.lexeme) last) :
    ∃ gap more, ts = gap ++ more ∧ (∀ t ∈ gap, t.isSpace = true) ∧
      ∀ t ∈ more.head?, t.kind = .braceClose := by
  induction ts generalizing cs mode with
  | nil => exact ⟨[], [], rfl, by simp, by simp⟩
  | cons t ts ih =>
    rw [List.map_cons] at h
    generalize hlexeme : t.lexeme = l at h
    cases h with
    | @cons _ _ kind c text cs _ _ hscan htail =>
      have hkind : t.kind = kind := congrArg Lexeme.kind hlexeme
      by_cases hblank : isBlank c = true
      · obtain ⟨rfl, -⟩ := hscan.unique (.space hmode hblank)
        have hall : ∀ d ∈ c :: text, isBlank d = true := by
          simpa [Kind.Spells] using hscan.spells
        have hends' : EndsBlock cs := by
          unfold EndsBlock at hends ⊢
          rwa [List.dropWhile_append_of_pos hall] at hends
        rw [Mode.after_eq_plain mode _ _ (by simp) (by simp)] at htail
        obtain ⟨gap, more, rfl, hgap, hmore⟩ := ih hends' (by simp) htail
        refine ⟨t :: gap, more, rfl, ?_, hmore⟩
        simpa [isSpace, hkind] using hgap
      · obtain rfl : c = '\x7d' := hends c (by simp [hblank])
        obtain ⟨hclose, -⟩ := hscan.unique (.punctuation hmode rfl)
        exact ⟨[], t :: ts, rfl, by simp, by simp [hkind, hclose]⟩

namespace Parse.State

/-! ### Runs that are collected -/

/-- Nothing is collected: the state is between two statements. -/
structure Idle (s : State) : Prop where
  buffer : s.buffer = []
  depth : s.depth = 0

theorem start_idle : start.Idle := ⟨rfl, rfl⟩

/-- A state that has collected the given run. -/
def collecting (s : State) (run : List Token) (depth : Nat) : State :=
  { s with buffer := run.reverse, depth := depth }

theorem Idle.collecting_nil {s : State} (hs : s.Idle) : s.collecting [] 0 = s := by
  cases s
  cases hs.buffer
  cases hs.depth
  rfl

theorem push_eq (s : State) (t : Token) :
    s.push t = { s with buffer := t :: s.buffer, depth := t.kind.depthBehind s.depth } := by
  unfold push Token.Kind.depthBehind
  cases t.kind <;> rfl

variable {lenient : Bool} {s s' s'' : State} {run ts us vs : List Token} {depth depth' : Nat}

theorem collecting_push (s : State) (run : List Token) (depth : Nat) (t : Token) :
    (s.collecting run depth).push t = s.collecting (run ++ [t]) (t.kind.depthBehind depth) := by
  simp [push_eq, collecting]

/-- Tokens that go on with a statement are collected. -/
theorem runs_collecting_of_ne_nil (hrun : run ≠ [])
    (hdepth : Statement.depth? depth (ts.map Token.kind) = some depth') :
    Runs lenient (s.collecting run depth) ts (s.collecting (run ++ ts) depth') := by
  induction ts generalizing run depth with
  | nil =>
    obtain rfl : depth = depth' := by simpa [Statement.depth?] using hdepth
    simp
  | cons t ts ih =>
    rw [List.map_cons, Statement.depth?] at hdepth
    split at hdepth
    · next hcontinues =>
      refine runs_cons.mpr ⟨_, .more (by simpa [collecting] using hrun) hcontinues, ?_⟩
      rw [collecting_push]
      have hnext : run ++ [t] ≠ [] := by simp
      simpa using ih hnext hdepth
    · cases hdepth

/-- **A run is collected** by a state between two statements. -/
theorem Idle.runs_collecting (hs : s.Idle)
    (hstarts : ∀ t ∈ run.head?, t.kind.startsStatement = true)
    (hdepth : Statement.depth? 0 (run.map Token.kind) = some depth) :
    Runs lenient s run (s.collecting run depth) := by
  cases run with
  | nil =>
    obtain rfl : 0 = depth := by simpa [Statement.depth?] using hdepth
    rw [hs.collecting_nil]
    exact runs_nil.mpr rfl
  | cons t ts =>
    have hstart := hstarts t rfl
    have hfirst : s.push t = s.collecting [t] (t.kind.depthBehind 0) := by
      rw [← List.nil_append [t], ← collecting_push, hs.collecting_nil]
    rw [List.map_cons, Statement.depth?] at hdepth
    split at hdepth
    · refine runs_cons.mpr ⟨_, .first hs.buffer hstart, ?_⟩
      rw [hfirst]
      exact runs_collecting_of_ne_nil (show [t] ≠ [] by simp) hdepth
    · cases hdepth

/-- Blank space goes on with every statement. -/
theorem depth?_of_isSpace (depth : Nat) {gap : List Token} (hgap : ∀ t ∈ gap, t.isSpace = true) :
    Statement.depth? depth (gap.map Token.kind) = some depth := by
  induction gap with
  | nil => rfl
  | cons t gap ih =>
    have hkind : t.kind = .space := by simpa [Token.isSpace] using hgap t List.mem_cons_self
    simpa [Statement.depth?, hkind, Token.Kind.continuesStatement, Token.Kind.depthBehind]
      using ih fun u hu => hgap u (List.mem_cons_of_mem t hu)

theorem keep_keep (s : State) (x y : String) : (s.keep x).keep y = s.keep (x ++ y) := by
  simp [keep, String.append_assoc]

/-- Between two statements blank space is kept. -/
theorem Idle.runs_gap (hs : s.Idle) {gap : List Token} (hgap : ∀ t ∈ gap, t.isSpace = true) :
    Runs lenient s gap (s.keep (Token.concat gap)) := by
  induction gap generalizing s with
  | nil => simp [keep]
  | cons t gap ih =>
    have hkind : t.kind = .space := by simpa [Token.isSpace] using hgap t List.mem_cons_self
    refine runs_cons.mpr ⟨_, .gap hs.buffer (.inl hkind), ?_⟩
    have hrest := ih (s := s.keep t.text) ⟨hs.buffer, hs.depth⟩
      fun u hu => hgap u (List.mem_cons_of_mem t hu)
    simpa [keep, String.append_assoc] using hrest

/-! ### What is left of a parse -/

/-- **What is left of a strict parse** when the given tokens are still to come. -/
def read (source : Source) (s : State) (ts : List Token) : Except ParseError (Tree Node) :=
  (ts.foldlM (step false) s).bind (·.finish source false)

theorem read_append_of_runs (source : Source) (h : Runs false s ts s') (us : List Token) :
    s.read source (ts ++ us) = s'.read source us := by
  rw [read, List.foldlM_append, show ts.foldlM (step false) s = .ok s' from h]
  rfl

theorem read_cons_of_steps (source : Source) {t : Token} (h : s.Steps false t s')
    (us : List Token) : s.read source (t :: us) = s'.read source us :=
  read_append_of_runs source (runs_cons.mpr ⟨s', h, runs_nil.mpr rfl⟩) us

/-- At the end of the source a statement that is collected is done. -/
theorem read_nil_of_ends (source : Source) (hbuffer : s.buffer ≠ [])
    (h : s.Ends false none s') : s.read source [] = s'.read source [] := by
  have hread (s : State) : s.read source [] = s.finish source false := rfl
  have hend : s.endStatement false none = .ok s' := (endStatement_eq_ok_iff hbuffer).mpr h
  rw [hread, hread, finish_eq_bind, finish_eq_bind]
  simp only [h.frame.1, hend, List.isEmpty_nil, if_true, List.isEmpty_iff, hbuffer, if_false]

/-- Before a closing brace a statement that is collected is done. -/
theorem read_braceClose_of_ends (source : Source) (hbuffer : s.buffer ≠ [])
    (h : s.Ends false none s') {t : Token} (hkind : t.kind = .braceClose) (us : List Token) :
    s.read source (t :: us) = s'.read source (t :: us) := by
  have hend : s.endStatement false none = .ok s' := (endStatement_eq_ok_iff hbuffer).mpr h
  have hstep : s.step false t = s'.step false t := by
    simp [step, hbuffer, h.frame.1, hkind, hend, bind, Except.bind]
  rw [read, read, List.foldlM_cons, List.foldlM_cons, hstep]

/-! ### Statements that are done -/

/-- What the current block contains so far. -/
def shape (s : State) : Forest Content := (Forest.ofLatestFirst s.block.children).map Node.content

variable {text ahead : List Char} {c : Content}

/-- **A run that means a statement ends as that statement**, with or without blank space behind
it. -/
theorem exists_ends (lenient : Bool) (hstands : Statement.Stands run depth text ahead)
    (hcontent : c.ReadFrom run) (hblock : c.opensBlock = false) :
    ∃ first node, (∀ gap, (node gap : Node).content = c) ∧
      ∀ (s : State) (gap : List Token) (semicolon? : Option Token),
        s.buffer.reverse = run ++ gap → (∀ t ∈ gap, t.isSpace = true) →
          s.Ends lenient semicolon? (s.completed first (run ++ gap) semicolon? node) := by
  obtain ⟨first, others, rfl⟩ := List.exists_cons_of_ne_nil (hcontent.ne_nil hblock)
  cases hcontent with
  | rule => cases hblock
  | atRule hfirst hkind hasBody =>
    obtain rfl : hasBody = false := hblock
    obtain rfl : first = _ := by simpa using hfirst
    refine ⟨first, Statement.atRule (first :: others), fun gap => ?_,
      fun s gap semicolon? hs hgap => ?_⟩
    · rw [Statement.atRule, hstands.content_eq]
    · have hnode : Statement.atRule (first :: others) =
          Statement.atRule (first :: others ++ gap) := by
        funext g
        rw [Statement.atRule, Statement.atRule, hstands.content_eq,
          hstands.content_append_gap hgap]
      rw [hnode]
      exact .atRule hs hkind
  | declaration hfirst hparts =>
    refine ⟨first, Statement.declaration _, fun gap => rfl, fun s gap semicolon? hs hgap => ?_⟩
    exact .declaration hs (hfirst first rfl)
      ((congrArg DeclarationParts.ofTokens (hstands.content_append_gap hgap)).trans hparts)

theorem completed_shape (s : State) (first : Token) (run : List Token) (semicolon? : Option Token)
    {node : Option String → Node} (hnode : ∀ gap, (node gap).content = c) :
    (s.completed first run semicolon? node).shape = s.shape ++ .cons c .nil .nil := by
  simp [shape, completed, attach, placed, Forest.map, hnode]

/-- Without a semicolon the blank space behind a statement waits for the next node. -/
theorem completed_append_gap (hstands : Statement.Stands run depth text ahead) (s : State)
    (first : Token) {gap : List Token} (node : Option String → Node)
    (hgap : ∀ t ∈ gap, t.isSpace = true) :
    s.completed first (run ++ gap) none node =
      (s.completed first run none node).keep (Token.concat gap) := by
  have hgap' := hstands.gap_append_gap (show ∀ t ∈ ([] : List Token), t.isSpace = true by simp)
  rw [List.append_nil] at hgap'
  simp [completed, keep, hstands.content_append_gap hgap, hstands.gap_append_gap hgap,
    hstands.content_eq, hgap', attach]

/-! ### Following a derivation -/

/-- **Reading `ts` goes on like reading `us`** from another state between two statements, in which
the current block contains the forest in addition. -/
structure Reaches (source : Source) (s : State) (ts : List Token) (f : Forest Content) (s' : State)
    (us : List Token) : Prop where
  idle : s'.Idle
  read : s.read source ts = s'.read source us
  outer : s'.outer = s.outer
  node : s'.block.node = s.block.node
  shape : s'.shape = s.shape ++ f

theorem Reaches.trans {source : Source} {f g : Forest Content} (h : Reaches source s ts f s' us)
    (h' : Reaches source s' us g s'' vs) : Reaches source s ts (f ++ g) s'' vs where
  idle := h'.idle
  read := h.read.trans h'.read
  outer := h'.outer.trans h.outer
  node := h'.node.trans h.node
  shape := by rw [h'.shape, h.shape, Forest.append_assoc]

namespace Idle

variable (source : Source)

theorem keep (hs : s.Idle) (x : String) : (s.keep x).Idle := ⟨hs.buffer, hs.depth⟩

/-- Between two statements blank space and semicolons are passed over. -/
theorem reaches_gap (hs : s.Idle) {t : Token} (hkind : t.kind = .space ∨ t.kind = .semicolon)
    (us : List Token) : Reaches source s (t :: us) .nil (s.keep t.text) us where
  idle := hs.keep _
  read := read_cons_of_steps source (.gap hs.buffer hkind) us
  outer := rfl
  node := rfl
  shape := by simp [shape, State.keep]

/-- Between two statements a comment is a node. -/
theorem reaches_comment (hs : s.Idle) {t : Token} (hkind : t.kind = .comment) (us : List Token) :
    Reaches source s (t :: us)
      (.cons (.comment (CommentParts.ofText t.text).text) .nil .nil) (s.comment t) us where
  idle := ⟨hs.buffer, hs.depth⟩
  read := read_cons_of_steps source (.comment hs.buffer hkind) us
  outer := rfl
  node := rfl
  shape := by simp [shape, State.comment, attach, placed, Forest.map]

/-- **A statement with a semicolon** behind it. -/
theorem exists_reaches_closed (hs : s.Idle) (hstands : Statement.Stands run 0 text ahead)
    (hcontent : c.ReadFrom run) (hblock : c.opensBlock = false) {gap : List Token}
    (hgap : ∀ t ∈ gap, t.isSpace = true) {t : Token} (hkind : t.kind = .semicolon)
    (us : List Token) :
    ∃ s', Reaches source s (run ++ (gap ++ t :: us)) (.cons c .nil .nil) s' us := by
  have hne := hcontent.ne_nil hblock
  obtain ⟨first, node, hnode, hall⟩ := exists_ends false hstands hcontent hblock
  have hcollect : Runs false s (run ++ gap) (s.collecting (run ++ gap) 0) :=
    runs_append.mpr ⟨_, hs.runs_collecting hstands.starts hstands.depth,
      runs_collecting_of_ne_nil hne (depth?_of_isSpace 0 hgap)⟩
  have hdone := hall (s.collecting (run ++ gap) 0) gap (some t) (by simp [collecting]) hgap
  refine ⟨(s.collecting (run ++ gap) 0).completed first (run ++ gap) (some t) node,
    ⟨⟨rfl, rfl⟩, ?_, rfl, rfl, completed_shape _ _ _ _ hnode⟩⟩
  rw [← List.append_assoc, read_append_of_runs source hcollect]
  exact read_cons_of_steps source (.semicolon (by simp [collecting, hne]) hkind rfl hdone) us

/-- **The last statement of a block.**  While the blank space behind it is read it is still
collected, which makes no difference to what follows. -/
theorem exists_reaches_last (hs : s.Idle) (hstands : Statement.Stands run depth text ahead)
    (hcontent : c.ReadFrom run) (hblock : c.opensBlock = false) {gap more : List Token}
    (hgap : ∀ t ∈ gap, t.isSpace = true) (hmore : ∀ t ∈ more.head?, t.kind = .braceClose) :
    ∃ s', Reaches source s (run ++ (gap ++ more)) (.cons c .nil .nil) s' (gap ++ more) := by
  have hne := hcontent.ne_nil hblock
  obtain ⟨first, node, hnode, hall⟩ := exists_ends false hstands hcontent hblock
  have hcollect : Runs false s (run ++ gap) (s.collecting (run ++ gap) depth) :=
    runs_append.mpr ⟨_, hs.runs_collecting hstands.starts hstands.depth,
      runs_collecting_of_ne_nil hne (depth?_of_isSpace depth hgap)⟩
  have hdone := hall (s.collecting (run ++ gap) depth) gap none (by simp [collecting]) hgap
  have hidle : Idle ((s.collecting run depth).completed first run none node) := ⟨rfl, rfl⟩
  have hsame : (s.collecting (run ++ gap) depth).completed first (run ++ gap) none node =
      ((s.collecting run depth).completed first run none node).keep (Token.concat gap) :=
    completed_append_gap hstands (s.collecting run depth) first node hgap
  have hbuffer : (s.collecting (run ++ gap) depth).buffer ≠ [] := by simp [collecting, hne]
  refine ⟨_, ⟨hidle, ?_, rfl, rfl, completed_shape _ _ _ _ hnode⟩⟩
  rw [read_append_of_runs source (hidle.runs_gap hgap), ← hsame, ← List.append_assoc,
    read_append_of_runs source hcollect]
  cases more with
  | nil => exact read_nil_of_ends source hbuffer hdone
  | cons t us => exact read_braceClose_of_ends source hbuffer hdone (hmore t rfl) us

/-- **The head of a block** makes an empty block the current one. -/
theorem exists_open (hs : s.Idle) (hstands : Statement.Stands run depth text ahead)
    (hcontent : c.ReadFrom run) (hblock : c.opensBlock = true) {gap : List Token}
    (hgap : ∀ t ∈ gap, t.isSpace = true) {t : Token} (hkind : t.kind = .braceOpen)
    (us : List Token) :
    ∃ s' : State, s'.Idle ∧ s.read source (run ++ (gap ++ t :: us)) = s'.read source us ∧
      s'.outer = s.block :: s.outer ∧ s'.block.node.content = c ∧ s'.shape = .nil := by
  -- Blank space that nothing stands in front of is kept and not collected.
  obtain ⟨s₁, hrun, hblock₁, houter₁, hbuffer⟩ : ∃ s₁ : State, Runs false s (run ++ gap) s₁ ∧
      s₁.block = s.block ∧ s₁.outer = s.outer ∧
        Statement.content s₁.buffer.reverse = run := by
    cases run with
    | nil => exact ⟨_, hs.runs_gap hgap, rfl, rfl, by simp [State.keep, hs.buffer, Statement.content]⟩
    | cons first others =>
      refine ⟨_, runs_append.mpr ⟨_, hs.runs_collecting hstands.starts hstands.depth,
        runs_collecting_of_ne_nil (by simp) (depth?_of_isSpace depth hgap)⟩, rfl, rfl, ?_⟩
      rw [collecting, List.reverse_reverse]
      exact hstands.content_append_gap hgap
  obtain ⟨start, span, hopen⟩ := s₁.openBlock_eq t
  refine ⟨s₁.openBlock t, ?_, ?_, ?_, ?_, ?_⟩
  · rw [hopen]
    exact ⟨rfl, rfl⟩
  · rw [← List.append_assoc, read_append_of_runs source hrun]
    exact read_cons_of_steps source (.openBlock hkind) us
  · rw [hopen, ← hblock₁, ← houter₁]
  · rw [hopen]
    show (Statement.block s₁.buffer.reverse).content = c
    have hread := Statement.block_readFrom s₁.buffer.reverse
    rw [hbuffer] at hread
    exact hread.unique hcontent ((Statement.block_opensBlock _).trans hblock.symm)
  · rw [hopen]
    rfl

/-- **A closing brace** puts the block behind what the block around it contains. -/
theorem close (hs : s.Idle) {parent : Block} {outer : List Block} (houter : s.outer = parent :: outer)
    {t : Token} (hkind : t.kind = .braceClose) (us : List Token) :
    ∃ s' : State, s'.Idle ∧ s.read source (t :: us) = s'.read source us ∧ s'.outer = outer ∧
      s'.block.node = parent.node ∧
      s'.shape = (Forest.ofLatestFirst parent.children).map Node.content ++
        .cons s.block.node.content s.shape .nil := by
  refine ⟨s.close t.stop, ?_, ?_, ?_, ?_, ?_⟩
  · rw [close_eq houter]
    exact ⟨hs.buffer, hs.depth⟩
  · exact read_cons_of_steps source (.close hs.buffer hkind (by simp [houter])) us
  · rw [close_eq houter]
  · rw [close_eq houter]
  · rw [close_eq houter]
    simp [shape, Forest.map]

end Idle

end Parse.State

open Parse.State

/-- **The tokens of a derivation**, and what a parse does with them. -/
theorem Reads.exists_lexes (source : Source) {text rest : List Char} {f : Forest Content}
    (h : Reads text f rest) (hrest : ∀ c ∈ rest.head?, c = '\x7d') {ls : List Lexeme} {last : Mode}
    (hlexes : Lexes .plain rest [] ls last) :
    ∃ ls' last', Lexes .plain text [] (ls' ++ ls) last' ∧
      ∀ (s : Parse.State) (ts : List Token), s.Idle → ts.map Token.lexeme = ls' ++ ls →
        ∃ s' us, us.map Token.lexeme = ls ∧ Reaches source s ts f s' us := by
  induction h generalizing ls last with
  | nil rest =>
    exact ⟨[], last, hlexes, fun s ts hs hts => ⟨s, ts, hts, hs, rfl, rfl, rfl, by simp⟩⟩
  | @gap c cs rest f hgap hreads ih =>
    obtain ⟨ls', last', hcs, hparse⟩ := ih hrest hlexes
    by_cases hc : Token.isBlank c = true
    · rcases hcs.cons_blank hc with hnew | ⟨text, ls₀, hls, hhead, hne, hmerged⟩
      · refine ⟨_ :: ls', last', hnew, fun s ts hs hts => ?_⟩
        obtain ⟨t, us, rfl, ht, hus⟩ := List.map_eq_cons_iff.mp hts
        have hstep := hs.reaches_gap source (.inl (congrArg Lexeme.kind ht)) us
        obtain ⟨s', vs, hvs, hreach⟩ := hparse _ us hstep.idle hus
        exact ⟨s', vs, hvs, hstep.trans hreach⟩
      · -- The blank space goes on: the parse keeps the longer token as it would keep both parts.
        cases ls' with
        | nil =>
          subst hls
          have hblank := hlexes.concat_eq
          obtain ⟨d, text, rfl⟩ := List.exists_cons_of_ne_nil hne
          rw [← hblank] at hrest
          obtain rfl : d = '\x7d' := hrest d rfl
          cases hhead _ rfl
        | cons l ls' =>
          obtain ⟨rfl, rfl⟩ : l = ⟨.space, text⟩ ∧ ls' ++ ls = ls₀ := by simpa using hls
          refine ⟨⟨.space, c :: text⟩ :: ls', last', hmerged, fun s ts hs hts => ?_⟩
          obtain ⟨t, us, rfl, ht, hus⟩ := List.map_eq_cons_iff.mp hts
          have hkind : t.kind = .space := congrArg Lexeme.kind ht
          have htext : t.text = String.singleton c ++ String.ofList text := by
            have := congrArg Lexeme.text ht
            rw [← String.toList_inj]
            simpa [Token.lexeme] using this
          obtain ⟨s', vs, hvs, hreach⟩ := hparse (s.keep (String.singleton c))
            (Lexeme.token ⟨.space, text⟩ :: us) (hs.keep _) (by simpa using hus)
          refine ⟨s', vs, hvs, hreach.idle, ?_, hreach.outer, hreach.node, hreach.shape⟩
          rw [← hreach.read, (hs.reaches_gap source (.inl hkind) us).read,
            ((hs.keep _).reaches_gap source (.inl rfl) us).read, htext, keep_keep]
          rfl
    · obtain rfl : c = ';' := by simpa [Token.isGap, hc] using hgap
      refine ⟨_ :: ls', last',
        hcs.punctuation (by simp) (show Token.punctuation? ';' = some .semicolon from rfl) (by simp), fun s ts hs hts => ?_⟩
      obtain ⟨t, us, rfl, ht, hus⟩ := List.map_eq_cons_iff.mp hts
      have hstep := hs.reaches_gap source (.inr (congrArg Lexeme.kind ht)) us
      obtain ⟨s', vs, hvs, hreach⟩ := hparse _ us hstep.idle hus
      exact ⟨s', vs, hvs, hstep.trans hreach⟩
  | @comment inner cs rest f hinner hreads ih =>
    obtain ⟨ls', last', hcs, hparse⟩ := ih hrest hlexes
    refine ⟨_ :: ls', last', hcs.comment hinner, fun s ts hs hts => ?_⟩
    obtain ⟨t, us, rfl, ht, hus⟩ := List.map_eq_cons_iff.mp hts
    have hstep := hs.reaches_comment source (congrArg Lexeme.kind ht) us
    have htext : t.text = String.ofList ('/' :: '*' :: (inner ++ ['*', '/'])) := by
      rw [← String.toList_inj, String.toList_ofList]
      exact congrArg Lexeme.text ht
    rw [htext] at hstep
    obtain ⟨s', vs, hvs, hreach⟩ := hparse _ us hstep.idle hus
    exact ⟨s', vs, hvs, hstep.trans hreach⟩
  | @closed run text gap cs rest c f hstands hgap hcontent hblock hreads ih =>
    obtain ⟨ls', last', hcs, hparse⟩ := ih hrest hlexes
    obtain ⟨gaps, hgaps, hall⟩ :=
      hstands.exists_lexes hgap (show Token.punctuation? ';' = some .semicolon from rfl) (by simp) hcs
    refine ⟨run.map Token.lexeme ++ (gaps ++ ⟨.semicolon, [';']⟩ :: ls'), last',
      by simpa using hall, fun s ts hs hts => ?_⟩
    simp only [List.append_assoc, List.cons_append, List.map_eq_append_iff,
      List.map_eq_cons_iff] at hts
    obtain ⟨run', ts, rfl, hrun, gap', ts, rfl, hgap', semi, us, rfl, hsemi, hus⟩ := hts
    obtain ⟨s₁, hfirst⟩ := hs.exists_reaches_closed source (hstands.congr hrun)
      (hcontent.congr hrun) hblock (Token.isSpace_of_map_lexeme hgap' hgaps)
      (congrArg Lexeme.kind hsemi) us
    obtain ⟨s', vs, hvs, hreach⟩ := hparse s₁ us hfirst.idle (List.map_eq_append_iff.mpr hus)
    exact ⟨s', vs, hvs, hfirst.trans hreach⟩
  | @last run depth text cs rest c f hstands hends hcontent hblock hreads ih =>
    obtain ⟨ls', last', hcs, hparse⟩ := ih hrest hlexes
    obtain ⟨behind, hbehind, htext⟩ := hstands.lexes
    have hparen : cs.head? ≠ some '(' := by
      intro hhead
      obtain ⟨cs, rfl⟩ := List.head?_eq_some_iff.mp hhead
      cases hends '(' (by simp [Token.isBlank])
    obtain ⟨last'', hcs'⟩ := hcs.of_mode (by simp) hbehind hparen
    rw [← List.append_nil cs] at htext
    refine ⟨run.map Token.lexeme ++ ls', last'', by simpa using htext.append hcs',
      fun s ts hs hts => ?_⟩
    simp only [List.append_assoc, List.map_eq_append_iff] at hts
    obtain ⟨run', us, rfl, hrun, hus⟩ := hts
    have hus' : us.map Token.lexeme = ls' ++ ls := List.map_eq_append_iff.mpr hus
    rw [← hus'] at hcs
    obtain ⟨gap, more, rfl, hgap, hmore⟩ := hends.exists_gap (by simp) hcs
    obtain ⟨s₁, hfirst⟩ := hs.exists_reaches_last source (hstands.congr hrun)
      (hcontent.congr hrun) hblock hgap hmore
    obtain ⟨s', vs, hvs, hreach⟩ := hparse s₁ _ hfirst.idle hus'
    exact ⟨s', vs, hvs, hfirst.trans hreach⟩
  | @block run depth text gap inner cs rest c children f hstands hgap hcontent hblock hinner hreads
      ihInner ih =>
    obtain ⟨ls', last', hcs, hparse⟩ := ih hrest hlexes
    have hclose : Lexes .plain ('\x7d' :: cs) [] (⟨.braceClose, ['\x7d']⟩ :: (ls' ++ ls)) last' :=
      hcs.punctuation (by simp) rfl (by simp)
    obtain ⟨lsInner, lastInner, hall, hparseInner⟩ := ihInner (by simp) hclose
    obtain ⟨gaps, hgaps, hblockText⟩ :=
      hstands.exists_lexes hgap (show Token.punctuation? '\x7b' = some .braceOpen from rfl) (by simp) hall
    refine ⟨run.map Token.lexeme ++ (gaps ++ ⟨.braceOpen, ['\x7b']⟩ ::
      (lsInner ++ ⟨.braceClose, ['\x7d']⟩ :: ls')), lastInner, by simpa using hblockText,
      fun s ts hs hts => ?_⟩
    simp only [List.append_assoc, List.cons_append, List.map_eq_append_iff,
      List.map_eq_cons_iff] at hts
    obtain ⟨run', ts, rfl, hrun, gap', ts, rfl, hgap', brace, us, rfl, hbrace, hus⟩ := hts
    obtain ⟨s₁, hs₁, hread₁, houter₁, hnode₁, hshape₁⟩ := hs.exists_open source
      (hstands.congr hrun) (hcontent.congr hrun) hblock
      (Token.isSpace_of_map_lexeme hgap' hgaps) (congrArg Lexeme.kind hbrace) us
    obtain ⟨s₂, vs, hvs, hreach₂⟩ := hparseInner s₁ us hs₁
      (by simpa [List.map_eq_append_iff, List.map_eq_cons_iff] using hus)
    obtain ⟨close, ws, rfl, hcloseKind, hws⟩ := List.map_eq_cons_iff.mp hvs
    obtain ⟨s₃, hs₃, hread₃, houter₃, hnode₃, hshape₃⟩ := hreach₂.idle.close source
      (hreach₂.outer.trans houter₁) (congrArg Lexeme.kind hcloseKind) ws
    obtain ⟨s', xs, hxs, hreach⟩ := hparse s₃ ws hs₃ hws
    refine ⟨s', xs, hxs, Reaches.trans (show Reaches source s _ (.cons c children .nil) s₃ ws from
      ⟨hs₃, ?_, houter₃, hnode₃, ?_⟩) hreach⟩
    · rw [hread₁, hreach₂.read, hread₃]
    · rw [hshape₃, hreach₂.shape, hshape₁, hreach₂.node, hnode₁]
      rfl

/-- A strict parse of a text that can be read to the end. -/
theorem parse_eq_read {source : Source} (h : (tokenize source false).failure = none) :
    parse source false = Parse.State.start.read source (tokenize source false).tokens := by
  unfold parse Parse.State.read
  dsimp only
  rw [h]
  cases (tokenize source false).tokens.foldlM (Parse.State.step false) .start <;> rfl

/-- **A text of the grammar is accepted**, and its tree has the shape that the grammar gives it. -/
theorem parse_of_reads {source : Source} {f : Forest Content}
    (h : Reads source.text.toList f []) :
    ∃ t, parse source false = .ok t ∧ t.map Node.content = ⟨.root, f⟩ := by
  obtain ⟨ls, last, hlexes, hparse⟩ := h.exists_lexes source (by simp) (.nil .plain [])
  obtain ⟨hfailure, htokens⟩ := (Reader.ofSource_fresh source false).drain_of_lexes hlexes
  obtain ⟨s, us, hus, hreach⟩ := hparse .start _ start_idle htokens
  obtain rfl : us = [] := by simpa using hus
  have hread := hreach.read
  have hfinish : s.finish source false = .ok (s.tree source) := by
    refine finish_eq_ok_iff.mpr ⟨s, .nothing hreach.idle.buffer, .inl hreach.outer, ?_⟩
    rw [closeAll, hreach.outer]
    rfl
  refine ⟨s.tree source, ?_, ?_⟩
  · rw [parse_eq_read hfailure]
    exact hread.trans hfinish
  · have hshape := hreach.shape
    have hroot := congrArg Node.content hreach.node
    simp only [tree, Tree.map, ended]
    exact congrArg₂ Tree.mk hroot hshape

end LosslessCss
