import LosslessCss.Proofs.Accepting

/-!
# What is accepted is in the grammar

The converse of `parse_of_reads`: a text that a strict parse accepts is a text of the grammar.  The
proof takes the tokens apart from the front, one gap, comment, statement or block at a time
(`Parse.State.exists_covers`).

On the way it collects what a strict parse knows of each node: the node is a run of tokens that
stood in a text, taken apart into content and gaps (`Node.Written`), and the gaps around it are made
of blank space and semicolons (`Node.Spaced`).  This is all that printing needs to know in order to
put nodes together in a new way.

## Main Definitions

* `Content.Records` : the gaps inside a node as its run has them
* `Node.Written`, `Node.Spaced`
* `Parse.State.Covers`, `Parse.State.Collects`

## Main Statements

* `reads_of_parse` : an accepted text is in the grammar, and its nodes are written and spaced
-/

namespace LosslessCss

open Token (Mode Scans)

/-! ### What is known of a node -/

/-- A text of blank space. -/
def IsBlankText (x : String) : Prop := ∀ c ∈ x.toList, Token.isBlank c = true

/-- A text of blank space and semicolons. -/
def IsGapText (x : String) : Prop := ∀ c ∈ x.toList, Token.isGap c = true

theorem IsBlankText.isGapText {x : String} (h : IsBlankText x) : IsGapText x := by
  intro c hc
  simp [Token.isGap, h c hc]

theorem isBlankText_empty : IsBlankText "" := by
  simp [IsBlankText]

theorem isGapText_empty : IsGapText "" := isBlankText_empty.isGapText

theorem IsGapText.append {x y : String} (hx : IsGapText x) (hy : IsGapText y) :
    IsGapText (x ++ y) := by
  intro c hc
  rw [String.toList_append, List.mem_append] at hc
  exact hc.elim (hx c) (hy c)

/-- Tokens of blank space are a text of blank space. -/
theorem isBlankText_concat {gap : List Token} (hgap : ∀ t ∈ gap, t.isSpace = true)
    (hspells : ∀ t ∈ gap, t.kind.Spells t.text.toList) : IsBlankText (Token.concat gap) := by
  induction gap with
  | nil => exact isBlankText_empty
  | cons t gap ih =>
    intro c hc
    rw [Token.concat_cons, String.toList_append, List.mem_append] at hc
    rcases hc with hc | hc
    · have hkind : t.kind = .space := by simpa [Token.isSpace] using hgap t List.mem_cons_self
      have hspell := hspells t List.mem_cons_self
      rw [hkind] at hspell
      exact hspell c hc
    · exact ih (fun u hu => hgap u (List.mem_cons_of_mem t hu))
        (fun u hu => hspells u (List.mem_cons_of_mem t hu)) c hc

/-- **The gaps inside a node** are those of its run; what stands behind the run is blank. -/
def Content.Records (run : List Token) (raws : Raws) : Content → Prop
  | .rule _ => ∃ gap, raws.between = some gap ∧ IsBlankText gap
  | .atRule _ _ _ => raws.afterName = some (AtRuleHead.ofTokens run).afterName ∧
      ∃ gap, raws.between = some gap ∧ IsBlankText gap
  | .declaration _ _ _ => ∃ parts, DeclarationParts.ofTokens run = .ok parts ∧
      raws.between = some parts.between ∧ raws.important = parts.important ∧
        ∃ gap, raws.afterValue = some gap ∧ IsBlankText gap
  | .root | .comment _ => True

/-- **A node that was read**: a comment, or a run of tokens that the end of a statement or the
beginning of a block followed. -/
inductive Node.Written (n : Node) : Prop
  | comment {inner : List Char}
      (hinner : Token.commentTail (inner ++ ['*', '/']) = some (inner.length + 2))
      (hcontent : n.content = .comment (CommentParts.ofText
        (String.ofList ('/' :: '*' :: (inner ++ ['*', '/'])))).text)
      (hleft : n.raws.left = some (CommentParts.ofText
        (String.ofList ('/' :: '*' :: (inner ++ ['*', '/'])))).left)
      (hright : n.raws.right = some (CommentParts.ofText
        (String.ofList ('/' :: '*' :: (inner ++ ['*', '/'])))).right) : Written n
  | run {run : List Token} {depth : Nat} {text ahead : List Char}
      (hstands : Statement.Stands run depth text ahead) (hstops : Token.Stops ahead)
      (hcontent : n.content.ReadFrom run) (hrecords : n.content.Records run n.raws) : Written n

/-- **The gaps around a node** are made of blank space and semicolons, if they were recorded. -/
structure Node.Spaced (n : Node) : Prop where
  before : ∀ x ∈ n.raws.before, IsGapText x
  after : ∀ x ∈ n.raws.after, IsGapText x

namespace Statement

theorem depth?_eq_content (depth : Nat) (run : List Token) :
    depth? depth (run.map Token.kind) = depth? depth ((content run).map Token.kind) := by
  conv_lhs => rw [← dropTrailing_append_takeTrailing Token.isSpace run]
  rw [List.map_append, depth?_append]
  have hgap : ∀ t ∈ takeTrailing Token.isSpace run, t.isSpace = true :=
    fun t ht => of_mem_takeTrailing ht
  cases hdepth : depth? depth ((content run).map Token.kind) with
  | none =>
    rw [content] at hdepth
    rw [hdepth]
    rfl
  | some d =>
    rw [content] at hdepth
    rw [hdepth]
    exact Parse.State.depth?_of_isSpace d hgap

end Statement

/-- A gap in front of a text of the grammar. -/
theorem Reads.gap_append {gap cs rest : List Char} {f : Forest Content}
    (hgap : ∀ c ∈ gap, Token.isGap c = true) (h : Reads cs f rest) : Reads (gap ++ cs) f rest := by
  induction gap with
  | nil => exact h
  | cons c gap ih =>
    exact .gap (hgap c List.mem_cons_self) (ih fun d hd => hgap d (List.mem_cons_of_mem c hd))

/-- The text of a comment token. -/
theorem Token.Scans.exists_inner {c : Char} {text ahead : List Char} {mode : Mode}
    (h : Scans c (text ++ ahead) mode .comment text.length) :
    ∃ inner, c :: text = '/' :: '*' :: (inner ++ ['*', '/']) ∧
      commentTail (inner ++ ['*', '/']) = some (inner.length + 2) := by
  generalize hn : text.length = n at h
  generalize hkind : Kind.comment = kind at h
  cases h with
  | @comment _ rest m hmode hslash hstar hreach =>
    obtain ⟨text', rfl⟩ : ∃ text', text = '*' :: text' := by
      cases text with
      | nil => simp at hn
      | cons d ds => exact ⟨ds, congrArg (· :: ds) (List.cons.inj hstar).1⟩
    obtain rfl : text' ++ ahead = rest := by simpa using hstar
    obtain rfl : text'.length = m := by simpa using hn
    rw [commentTail_append_iff le_rfl] at hreach
    obtain ⟨-, inner, hinner⟩ := commentTail_spec hreach
    rw [List.take_length] at hinner
    subst hinner
    exact ⟨inner, by rw [hslash], by simpa using hreach⟩
  | punctuation _ hpunct =>
    subst hkind
    cases (kind_of_punctuation? hpunct).2.2.2
  | _ => cases hkind

/-- Behind a stretch an address starts only if the text ahead can start one. -/
theorem Lexes.head_of_last_eq_address {mode : Mode} {cs rest : List Char} {ls : List Lexeme}
    (h : Lexes mode cs rest ls .address) (hls : ls ≠ []) :
    rest.head?.any Token.startsAddress = true := by
  generalize hlast : Mode.address = last at h
  induction h with
  | nil => contradiction
  | cons hscan htail ih =>
    cases htail with
    | nil =>
      unfold Mode.after at hlast
      split at hlast
      · next hparen => exact hparen.2.2
      · split at hlast <;> cases hlast
    | cons => exact ih (by simp) hlast

/-- In an address there are words only. -/
theorem Token.Scans.kind_eq_word {c : Char} {cs : List Char} {kind : Kind} {n : Nat}
    (h : Scans c cs .address kind n) : kind = .word := by
  generalize hmode : Mode.address = mode at h
  cases h with
  | address => rfl
  | _ => simp_all

/-- The first token of a text. -/
theorem Lexes.of_cons {mode last : Mode} {text rest : List Char} {t : Token} {ts : List Token}
    (h : Lexes mode text rest ((t :: ts).map Token.lexeme) last) :
    ∃ cs, text = t.text.toList ++ cs ∧ t.kind.Spells t.text.toList ∧
      (mode = .address → t.kind = .word) ∧
        (t.kind ≠ .parenOpen → t.kind ≠ .word →
          Lexes .plain cs rest (ts.map Token.lexeme) last) := by
  rw [List.map_cons] at h
  generalize hlexeme : t.lexeme = l at h
  cases h with
  | @cons _ _ kind c text cs _ _ hscan htail =>
    obtain rfl : t.kind = kind := congrArg Lexeme.kind hlexeme
    have htext : t.text.toList = c :: text := congrArg Lexeme.text hlexeme
    refine ⟨cs, by rw [htext], by simpa [htext] using hscan.spells, ?_, fun hparen hword => ?_⟩
    · rintro rfl
      exact hscan.kind_eq_word
    · rwa [Mode.after_eq_plain _ _ _ hparen hword] at htail

/-- A comment at the start of a text. -/
theorem Lexes.exists_inner_of_cons {mode last : Mode} {text : List Char} {t : Token}
    {ts : List Token} (h : Lexes mode text [] ((t :: ts).map Token.lexeme) last)
    (hkind : t.kind = .comment) :
    ∃ inner, t.text.toList = '/' :: '*' :: (inner ++ ['*', '/']) ∧
      Token.commentTail (inner ++ ['*', '/']) = some (inner.length + 2) := by
  rw [List.map_cons] at h
  generalize hlexeme : t.lexeme = l at h
  cases h with
  | cons hscan htail =>
    obtain rfl : t.kind = _ := congrArg Lexeme.kind hlexeme
    rw [show t.text.toList = _ from congrArg Lexeme.text hlexeme]
    rw [hkind] at hscan
    exact hscan.exists_inner

/-- A text that starts with a closing brace, or is empty. -/
theorem Lexes.head_eq_brace {mode last : Mode} {text : List Char} {ts : List Token}
    (h : Lexes mode text [] (ts.map Token.lexeme) last)
    (hbrace : ∀ t ∈ ts.head?, t.kind = .braceClose) : ∀ c ∈ text.head?, c = '\x7d' := by
  cases ts with
  | nil =>
    cases h
    simp
  | cons t ts =>
    obtain ⟨cs, rfl, hspells, -⟩ := h.of_cons
    rw [hbrace t rfl] at hspells
    rw [show t.text.toList = ['\x7d'] from hspells]
    simp

/-- Behind blank space a block ends with a closing brace, or with the text. -/
theorem Token.endsBlock_append {blank cs : List Char} (hblank : ∀ c ∈ blank, isBlank c = true)
    (hcs : ∀ c ∈ cs.head?, c = '\x7d') : EndsBlock (blank ++ cs) := by
  unfold EndsBlock
  rw [List.dropWhile_append_of_pos hblank]
  cases cs with
  | nil => simp
  | cons c cs =>
    obtain rfl := hcs c rfl
    simp [isBlank]

/-- The texts of all tokens fit their kinds. -/
theorem Lexes.spells_tokens {mode last : Mode} {text rest : List Char} {ts : List Token}
    (h : Lexes mode text rest (ts.map Token.lexeme) last) :
    ∀ t ∈ ts, t.kind.Spells t.text.toList :=
  fun _ ht => h.spells _ (List.mem_map_of_mem ht)

namespace Statement

/-- **Tokens are cut** where a statement does not go on. -/
theorem exists_run (depth : Nat) (ts : List Token) :
    ∃ run more depth', ts = run ++ more ∧ depth? depth (run.map Token.kind) = some depth' ∧
      ∀ t ∈ more.head?, t.kind.continuesStatement depth' = false := by
  induction ts generalizing depth with
  | nil => exact ⟨[], [], depth, rfl, rfl, by simp⟩
  | cons t ts ih =>
    cases hcontinues : t.kind.continuesStatement depth with
    | false => exact ⟨[], t :: ts, depth, rfl, rfl, by simpa using hcontinues⟩
    | true =>
      obtain ⟨run, more, depth', rfl, hdepth, hmore⟩ := ih (t.kind.depthBehind depth)
      refine ⟨t :: run, more, depth', rfl, ?_, hmore⟩
      rw [List.map_cons, depth?, if_pos hcontinues]
      exact hdepth

/-- **A run stands in its text**, with its gap and the text behind it ahead. -/
theorem exists_stands {text : List Char} {run more : List Token} {depth : Nat} {last : Mode}
    (hlexes : Lexes .plain text [] ((run ++ more).map Token.lexeme) last)
    (hstarts : ∀ t ∈ run.head?, t.kind.startsStatement = true)
    (hdepth : depth? 0 (run.map Token.kind) = some depth)
    (hmore : ∀ t ∈ more.head?, t.kind.continuesStatement depth = false) :
    ∃ body blank behind, text = body ++ (blank ++ behind) ∧
      Stands (content run) depth body (blank ++ behind) ∧ Token.Stops (blank ++ behind) ∧
        (∀ c ∈ blank, Token.isBlank c = true) ∧
          ∃ last', Lexes .plain behind [] (more.map Token.lexeme) last' := by
  rw [← dropTrailing_append_takeTrailing Token.isSpace run, ← content, ← gap, List.append_assoc,
    List.map_append, List.map_append] at hlexes
  obtain ⟨body, text', middle, rfl, hbody, htext⟩ := hlexes.exists_of_append
  obtain ⟨blank, behind, middle', rfl, hblank, hbehind⟩ := htext.exists_of_append
  rw [List.append_nil] at hbody hblank
  have hisBlank : ∀ c ∈ blank, Token.isBlank c = true := by
    have hspace : ∀ t ∈ gap run, t.isSpace = true := fun _ ht => of_mem_takeTrailing ht
    have h := isBlankText_concat hspace hblank.spells_tokens
    rwa [IsBlankText, Token.toList_concat, hblank.concat_eq] at h
  -- What stands behind the gap is a semicolon, a brace or nothing.
  have hdelimiter : ∀ t ∈ more.head?, t.kind = .semicolon ∨ t.kind = .braceOpen ∨
      t.kind = .braceClose := by
    intro t ht
    exact (Token.Kind.continuesStatement_eq_false_iff.mp (hmore t ht)).imp_left And.left
  have hhead : ∀ c ∈ behind.head?, c = ';' ∨ c = '\x7b' ∨ c = '\x7d' := by
    intro c hc
    cases more with
    | nil => cases hbehind; cases hc
    | cons t us =>
      obtain ⟨cs, rfl, hspells, -, -⟩ := hbehind.of_cons
      rcases hdelimiter t rfl with hkind | hkind | hkind
      all_goals
        rw [hkind] at hspells
        rw [show t.text.toList = [_] from hspells] at hc
        obtain rfl : _ = c := by simpa using hc
        simp
  have hmiddle' : middle' ≠ .address ∨ more = [] := by
    cases more with
    | nil => exact .inr rfl
    | cons t us =>
      refine .inl fun haddress => ?_
      obtain ⟨cs, -, -, hword, -⟩ := hbehind.of_cons
      rcases hdelimiter t rfl with hkind | hkind | hkind <;> simp [hkind] at hword <;>
        exact hword haddress
  refine ⟨body, blank, behind, rfl, ⟨?_, ?_, ?_, middle, ?_, hbody⟩, ?_, hisBlank, ?_⟩
  · intro t ht
    obtain ⟨rest, hrest⟩ := List.head?_eq_some_iff.mp ht
    obtain ⟨tail, htail⟩ := dropTrailing_isPrefix Token.isSpace run
    rw [← content, hrest] at htail
    exact hstarts t (by rw [← htail]; rfl)
  · rw [← depth?_eq_content]
    exact hdepth
  · exact dropTrailing_eq_self_iff.mp (dropTrailing_dropTrailing run)
  · rintro rfl
    cases hcontent : content run with
    | nil =>
      rw [hcontent] at hbody
      cases hbody
    | cons t ts =>
      have hstart := hbody.head_of_last_eq_address (by simp [hcontent])
      cases blank with
      | nil =>
        generalize hgap : (gap run).map Token.lexeme = ls at hblank
        cases hblank
        rcases hmiddle' with hne | rfl
        · exact hne rfl
        · cases hbehind
          cases hstart
      | cons c blank => simp [Token.startsAddress, hisBlank c List.mem_cons_self] at hstart
  · intro c hc
    cases blank with
    | nil => rcases hhead c hc with h | h | h <;> simp [h]
    | cons d blank =>
      obtain rfl : d = c := by simpa using hc
      exact .inl (hisBlank d List.mem_cons_self)
  · rcases hmiddle' with hne | rfl
    · refine hbehind.of_mode hne (by simp) fun hparen => ?_
      rcases hhead '(' hparen with h | h | h <;> cases h
    · cases hbehind
      exact ⟨_, .nil _ _⟩

end Statement

namespace Parse.State

variable {source : Source} {s s' s'' : State} {run ts us vs : List Token} {depth : Nat}

/-! ### Nodes that are made -/

/-- Between two statements, with nothing but gaps pending. -/
structure Ready (s : State) : Prop extends Idle s where
  pending : IsGapText s.pending

theorem Ready.keep (hs : s.Ready) {x : String} (hx : IsGapText x) : (s.keep x).Ready where
  toIdle := hs.toIdle.keep x
  pending := hs.pending.append hx

theorem isBlankText_gap (hspells : ∀ t ∈ run, t.kind.Spells t.text.toList) :
    IsBlankText (Token.concat (Statement.gap run)) :=
  isBlankText_concat (fun _ ht => of_mem_takeTrailing ht)
    fun t ht => hspells t ((takeTrailing_isSuffix _ run).subset ht)

/-- **The node of a statement** is made of its run. -/
theorem Ends.exists_node {semicolon? : Option Token}
    (h : (s.collecting run depth).Ends false semicolon? s')
    (hspells : ∀ t ∈ run, t.kind.Spells t.text.toList) :
    ∃ n : Node, s'.block.children = ⟨n, .nil⟩ :: s.block.children ∧
      n.content.ReadFrom (Statement.content run) ∧ n.content.opensBlock = false ∧
        n.content.Records (Statement.content run) n.raws ∧ n.raws.before = some s.pending ∧
          n.raws.after = none ∧ IsGapText s'.pending := by
  have hgap := isBlankText_gap hspells
  have hrun (first : Token) (others : List Token)
      (hbuffer : (s.collecting run depth).buffer.reverse = first :: others) :
      run = first :: others := by
    simpa [collecting] using hbuffer
  cases h with
  | @atRule first others hbuffer hkind =>
    obtain rfl := hrun first others hbuffer
    have hcontent : Statement.content (first :: others) = first :: Statement.content others :=
      dropTrailing_cons_of_neg others (by simp [Token.isSpace, hkind])
    refine ⟨_, rfl, .atRule (show _ = some first by rw [hcontent]; rfl) hkind false, rfl,
      ⟨rfl, _, rfl, ?_⟩, rfl, rfl, ?_⟩
    · cases semicolon? <;> simp [hgap, isBlankText_empty]
    · cases semicolon? <;> simp [completed, hgap.isGapText, isGapText_empty]
  | @declaration first others parts hbuffer hkind hparts =>
    obtain rfl := hrun first others hbuffer
    have hfirst : ∀ t ∈ (Statement.content (first :: others)).head?, t.kind ≠ .atWord := by
      intro t ht
      have hprefix := dropTrailing_isPrefix Token.isSpace (first :: others)
      obtain ⟨more, hmore⟩ := hprefix
      obtain ⟨content, hcontent⟩ := List.head?_eq_some_iff.mp ht
      rw [← Statement.content, hcontent] at hmore
      obtain rfl : t = first := by simpa using (List.cons.inj hmore).1
      exact hkind
    refine ⟨_, rfl, .declaration hfirst hparts, rfl,
      ⟨parts, hparts, rfl, rfl, _, rfl, ?_⟩, rfl, rfl, ?_⟩
    · cases semicolon? <;> simp [hgap, isBlankText_empty]
    · cases semicolon? <;> simp [completed, hgap.isGapText, isGapText_empty]
  | kept hlenient => cases hlenient

/-- The node of the head of a block is made of its run. -/
theorem block_records (hspells : ∀ t ∈ run, t.kind.Spells t.text.toList) :
    (Statement.block run).content.Records (Statement.content run) (Statement.block run).raws := by
  have hgap := isBlankText_gap hspells
  unfold Statement.block
  split
  · exact ⟨rfl, _, rfl, hgap⟩
  · exact ⟨_, rfl, hgap⟩

/-! ### Taking the tokens apart -/

/-- A parse that comes to an end makes each step. -/
theorem exists_steps_of_read {t : Token} {r : Tree Node} (h : s.read source (t :: us) = .ok r) :
    ∃ s', s.Steps false t s' ∧ s'.read source us = .ok r := by
  rw [read, List.foldlM_cons] at h
  cases hstep : s.step false t with
  | error e =>
    rw [hstep] at h
    cases h
  | ok s' =>
    rw [hstep] at h
    exact ⟨s', step_eq_ok_iff.mp hstep, h⟩

/-- **Reading a text up to the end of the block**: what the text contains, what the parse makes of
it, and what is known of the nodes. -/
structure Covers (source : Source) (s : State) (ts : List Token) (text : List Char)
    (f : Forest Node) (s' : State) (us : List Token) (rest : List Char) : Prop where
  reads : Reads text (f.map Node.content) rest
  brace : ∀ t ∈ us.head?, t.kind = .braceClose
  lexes : ∃ last, Lexes .plain rest [] (us.map Token.lexeme) last
  shorter : us.length ≤ ts.length
  ready : s'.Ready
  read : s.read source ts = s'.read source us
  outer : s'.outer = s.outer
  node : s'.block.node = s.block.node
  children : Forest.ofLatestFirst s'.block.children = Forest.ofLatestFirst s.block.children ++ f
  known : ∀ n ∈ f.preorder, n.Written ∧ n.Spaced

variable {text rest : List Char} {f g : Forest Node}

/-- Something in front of what is read. -/
theorem Covers.prepend {s₁ : State} {ts₁ : List Token} {text₁ : List Char}
    (h : Covers source s₁ ts₁ text₁ f s' us rest) (hread : s.read source ts = s₁.read source ts₁)
    (houter : s₁.outer = s.outer) (hnode : s₁.block.node = s.block.node)
    (hchildren : Forest.ofLatestFirst s₁.block.children =
      Forest.ofLatestFirst s.block.children ++ g)
    (hlength : ts₁.length ≤ ts.length) (hknown : ∀ n ∈ g.preorder, n.Written ∧ n.Spaced)
    (hreads : Reads text ((g ++ f).map Node.content) rest) :
    Covers source s ts text (g ++ f) s' us rest where
  reads := hreads
  brace := h.brace
  lexes := h.lexes
  shorter := h.shorter.trans hlength
  ready := h.ready
  read := hread.trans h.read
  outer := h.outer.trans houter
  node := h.node.trans hnode
  children := by rw [h.children, hchildren, Forest.append_assoc]
  known := by
    intro n hn
    rw [Forest.preorder_append, List.mem_append] at hn
    exact hn.elim (hknown n) (h.known n)

/-- The end of a block, or of the text. -/
theorem Ready.covers_nil (hs : s.Ready) {last : Mode}
    (hlexes : Lexes .plain text [] (ts.map Token.lexeme) last)
    (hbrace : ∀ t ∈ ts.head?, t.kind = .braceClose) :
    Covers source s ts text .nil s ts text where
  reads := .nil text
  brace := hbrace
  lexes := ⟨last, hlexes⟩
  shorter := le_rfl
  ready := hs
  read := rfl
  outer := rfl
  node := rfl
  children := by simp
  known := by simp [Forest.preorder]

/-- A semicolon ends a statement outside all parentheses. -/
theorem Steps.ends_of_semicolon {t : Token} (h : s.Steps false t s') (hbuffer : s.buffer ≠ [])
    (hkind : t.kind = .semicolon) (hdepth : s.depth = 0) : s.Ends false (some t) s' := by
  cases h with
  | semicolon _ _ _ hends => exact hends
  | _ => simp_all [Token.Kind.continuesStatement]

/-- A closing brace ends a statement. -/
theorem Steps.exists_ends_of_braceClose {t : Token} (h : s.Steps false t s')
    (hbuffer : s.buffer ≠ []) (hkind : t.kind = .braceClose) : ∃ s₁, s.Ends false none s₁ := by
  cases h with
  | endClose _ _ _ hends => exact ⟨_, hends⟩
  | _ => simp_all [Token.Kind.continuesStatement]

/-- An opening brace opens a block. -/
theorem Steps.eq_openBlock {t : Token} (h : s.Steps false t s') (hkind : t.kind = .braceOpen) :
    s' = s.openBlock t := by
  cases h with
  | openBlock => rfl
  | _ => simp_all [Token.Kind.startsStatement, Token.Kind.continuesStatement]

/-- Between two statements a closing brace closes a block. -/
theorem Steps.eq_close {t : Token} (h : s.Steps false t s') (hbuffer : s.buffer = [])
    (hkind : t.kind = .braceClose) : s.outer ≠ [] ∧ s' = s.close t.stop := by
  cases h with
  | close _ _ houter => exact ⟨houter, rfl⟩
  | _ => simp_all [Token.Kind.startsStatement]

/-- A text that ends here has no statement that is not done. -/
theorem exists_ends_of_read_nil {r : Tree Node} (h : s.read source [] = .ok r)
    (hbuffer : s.buffer ≠ []) : ∃ s₁, s.Ends false none s₁ := by
  obtain ⟨s₁, hlast, -, -⟩ := finish_eq_ok_iff.mp (show s.finish source false = .ok r from h)
  cases hlast with
  | nothing hnil => exact absurd hnil hbuffer
  | statement _ hends => exact ⟨s₁, hends⟩

/-- A text that ends here has no open block. -/
theorem outer_eq_nil_of_read_nil {r : Tree Node} (h : s.read source [] = .ok r)
    (hbuffer : s.buffer = []) : s.outer = [] := by
  obtain ⟨s₁, hlast, houter, -⟩ := finish_eq_ok_iff.mp (show s.finish source false = .ok r from h)
  cases hlast with
  | nothing => simpa using houter
  | statement hne => exact absurd hbuffer hne

/-- Nothing but one node. -/
theorem forall_preorder_single {P : Node → Prop} {n : Node} (h : P n) :
    ∀ m ∈ (Forest.cons n .nil .nil).preorder, P m := by
  simpa [Forest.preorder] using h

/-- **A statement that ends is a node** that is written and spaced. -/
theorem Ready.exists_leaf (hs : s.Ready) {body ahead : List Char} {depth' : Nat}
    (hstands : Statement.Stands (Statement.content run) depth' body ahead)
    (hstops : Token.Stops ahead) (hspells : ∀ t ∈ run, t.kind.Spells t.text.toList)
    {semicolon? : Option Token} (h : (s.collecting run depth).Ends false semicolon? s') :
    ∃ n : Node, Forest.ofLatestFirst s'.block.children =
        Forest.ofLatestFirst s.block.children ++ .cons n .nil .nil ∧
      n.content.ReadFrom (Statement.content run) ∧ n.content.opensBlock = false ∧
        n.Written ∧ n.Spaced ∧ s'.Ready := by
  obtain ⟨n, hchildren, hcontent, hblock, hrecords, hbefore, hafter, hpending⟩ :=
    h.exists_node hspells
  refine ⟨n, by rw [hchildren, Forest.ofLatestFirst_cons], hcontent, hblock,
    .run hstands hstops hcontent hrecords, ⟨?_, ?_⟩, ⟨⟨h.frame.1, h.frame.2.1⟩, hpending⟩⟩
  · rw [hbefore]
    simpa using hs.pending
  · simp [hafter]

/-- A comment is a node that is written and spaced. -/
theorem Ready.exists_comment (hs : s.Ready) {t : Token} {inner : List Char}
    (htext : t.text.toList = '/' :: '*' :: (inner ++ ['*', '/']))
    (hinner : Token.commentTail (inner ++ ['*', '/']) = some (inner.length + 2)) :
    ∃ n : Node, Forest.ofLatestFirst (s.comment t).block.children =
        Forest.ofLatestFirst s.block.children ++ .cons n .nil .nil ∧
      n.content = .comment (CommentParts.ofText
        (String.ofList ('/' :: '*' :: (inner ++ ['*', '/'])))).text ∧ n.Written ∧ n.Spaced := by
  have hcomment : t.text = String.ofList ('/' :: '*' :: (inner ++ ['*', '/'])) := by
    rw [← String.toList_inj, htext, String.toList_ofList]
  refine ⟨_, Forest.ofLatestFirst_cons _ _, ?_, .comment hinner ?_ ?_ ?_, ⟨?_, ?_⟩⟩
  · rw [← hcomment]
    rfl
  · rw [← hcomment]
    rfl
  · rw [← hcomment]
    rfl
  · rw [← hcomment]
    rfl
  · simpa [placed] using hs.pending
  · simp [placed]

/-- **A block that is closed is a node** that is written and spaced. -/
theorem Ready.exists_block (hs : s.Ready) {body ahead : List Char} {depth' : Nat}
    (hstands : Statement.Stands (Statement.content run) depth' body ahead)
    (hstops : Token.Stops ahead) (hspells : ∀ t ∈ run, t.kind.Spells t.text.toList)
    {brace : Token} (houter : s'.outer = ((s.collecting run depth).openBlock brace).outer)
    (hnode : s'.block.node = ((s.collecting run depth).openBlock brace).block.node)
    (hpending : IsGapText s'.pending) (stop : Position) :
    ∃ n : Node, Forest.ofLatestFirst (s'.close stop).block.children =
        Forest.ofLatestFirst s.block.children ++
          .cons n (Forest.ofLatestFirst s'.block.children) .nil ∧
      n.content.ReadFrom (Statement.content run) ∧ n.content.opensBlock = true ∧
        n.Written ∧ n.Spaced ∧ (s'.close stop).outer = s.outer ∧
          (s'.close stop).block.node = s.block.node := by
  obtain ⟨start, span, hopen⟩ := (s.collecting run depth).openBlock_eq brace
  rw [hopen] at houter hnode
  have hrun : (s.collecting run depth).buffer.reverse = run := by simp [collecting]
  rw [hrun] at hnode
  have hcontent : (s'.closedNode stop).content = (Statement.block run).content := by
    rw [closedNode_content, hnode]
    rfl
  have hread := Statement.block_readFrom run
  have hrecords := block_records hspells
  rw [← hcontent] at hread hrecords
  rw [close_eq houter]
  refine ⟨s'.closedNode stop, Forest.ofLatestFirst_cons _ _, hread, ?_,
    .run hstands hstops hread ?_, ⟨?_, ?_⟩, rfl, rfl⟩
  · rw [hcontent]
    exact Statement.block_opensBlock run
  · rw [closedNode_raws, hnode]
    revert hrecords
    cases (s'.closedNode stop).content <;> exact id
  · rw [closedNode_raws, hnode]
    simpa [placed, collecting] using hs.pending
  · rw [closedNode_raws]
    simpa using hpending

/-! ### Taking a text apart from the front -/

/-- **What is read of fewer tokens is covered**: what the induction knows. -/
def CoveredBelow (source : Source) (r : Tree Node) (size : Nat) : Prop :=
  ∀ {s : State} {ts : List Token} {text : List Char} {last : Mode}, ts.length < size → s.Ready →
    Lexes .plain text [] (ts.map Token.lexeme) last → s.read source ts = .ok r →
      ∃ f s' us rest, Covers source s ts text f s' us rest

section Cases

variable {r : Tree Node} {t u : Token} {last : Mode} {s₁ : State} {more : List Token}
  {body blank behind : List Char}

/-- A gap between two statements. -/
theorem Ready.covers_gap (hs : s.Ready) (hgap : t.kind = .space ∨ t.kind = .semicolon)
    (ih : CoveredBelow source r (t :: ts).length)
    (hlexes : Lexes .plain text [] ((t :: ts).map Token.lexeme) last)
    (hread : s.read source (t :: ts) = .ok r) :
    ∃ f s' us rest, Covers source s (t :: ts) text f s' us rest := by
  obtain ⟨cs, rfl, hspells, -, hrest⟩ := hlexes.of_cons
  have hgapText : IsGapText t.text := by
    intro c hc
    rcases hgap with hkind | hkind <;> rw [hkind] at hspells
    · simp [Token.isGap, hspells c hc]
    · rw [show t.text.toList = [';'] from hspells] at hc
      obtain rfl : c = ';' := by simpa using hc
      rfl
  have hstep := hs.reaches_gap source hgap ts
  obtain ⟨f, s', us, rest, hcovers⟩ := ih (Nat.lt_succ_self _) (hs.keep hgapText)
    (hrest (by rcases hgap with h | h <;> simp [h]) (by rcases hgap with h | h <;> simp [h]))
    (hstep.read ▸ hread)
  refine ⟨.nil ++ f, s', us, rest, hcovers.prepend hstep.read rfl rfl (by simp [State.keep]) (by simp)
    (by simp [Forest.preorder]) ?_⟩
  exact hcovers.reads.gap_append hgapText

/-- A comment between two statements. -/
theorem Ready.covers_comment (hs : s.Ready) (hcomment : t.kind = .comment)
    (ih : CoveredBelow source r (t :: ts).length)
    (hlexes : Lexes .plain text [] ((t :: ts).map Token.lexeme) last)
    (hread : s.read source (t :: ts) = .ok r) :
    ∃ f s' us rest, Covers source s (t :: ts) text f s' us rest := by
  obtain ⟨cs, rfl, -, -, hrest⟩ := hlexes.of_cons
  obtain ⟨inner, hinnerText, hinner⟩ := hlexes.exists_inner_of_cons hcomment
  have hstep := hs.reaches_comment source hcomment ts
  obtain ⟨n, hchildren, hcontent, hwritten, hspaced⟩ := hs.exists_comment hinnerText hinner
  obtain ⟨f, s', us, rest, hcovers⟩ := ih (Nat.lt_succ_self _) (s := s.comment t)
    ⟨hstep.idle, isGapText_empty⟩ (hrest (by simp [hcomment]) (by simp [hcomment]))
    (hstep.read ▸ hread)
  refine ⟨_, s', us, rest, hcovers.prepend hstep.read rfl rfl hchildren (by simp)
    (forall_preorder_single ⟨hwritten, hspaced⟩) ?_⟩
  have hreads := hcovers.reads.comment hinner
  rw [← hcontent] at hreads
  simpa [hinnerText, Forest.map] using hreads

/-- **A statement in front**: its run stands at the start of the text, with blank space behind it, and
the parse collects it. -/
structure Collects (source : Source) (s : State) (run : List Token) (depth : Nat)
    (more : List Token) (body blank behind : List Char) : Prop where
  ready : s.Ready
  stands : Statement.Stands (Statement.content run) depth body (blank ++ behind)
  stops : Token.Stops (blank ++ behind)
  spells : ∀ t ∈ run, t.kind.Spells t.text.toList
  blank : ∀ c ∈ blank, Token.isBlank c = true
  lexes : ∃ last, Lexes .plain behind [] (more.map Token.lexeme) last
  read : s.read source (run ++ more) = (s.collecting run depth).read source more

/-- What is not the start of a gap, a comment or the end of a block starts with a run. -/
theorem Ready.exists_collects (hs : s.Ready)
    (hlexes : Lexes .plain text [] ((t :: ts).map Token.lexeme) last) (hspace : t.kind ≠ .space)
    (hcomment : t.kind ≠ .comment) :
    ∃ run more depth body blank behind, t :: ts = run ++ more ∧ text = body ++ (blank ++ behind) ∧
      (∀ u ∈ more.head?, u.kind.continuesStatement depth = false) ∧
        Collects source s run depth more body blank behind := by
  obtain ⟨run, more, depth, hts, hdepth, hmore⟩ := Statement.exists_run 0 (t :: ts)
  have hstarts : ∀ u ∈ run.head?, u.kind.startsStatement = true := by
    intro u hu
    obtain ⟨others, rfl⟩ := List.head?_eq_some_iff.mp hu
    obtain ⟨rfl, -⟩ := List.cons.inj hts
    have hcontinues : t.kind.continuesStatement 0 = true := by
      by_contra hstop
      simp [Statement.depth?, hstop] at hdepth
    exact Token.Kind.startsStatement_of_continuesStatement hcontinues hspace hcomment
  rw [hts] at hlexes
  obtain ⟨body, blank, behind, htext, hstands, hstops, hblank, hbehind⟩ :=
    Statement.exists_stands hlexes hstarts hdepth hmore
  refine ⟨run, more, depth, body, blank, behind, hts, htext, hmore, hs, hstands, hstops,
    fun u hu => hlexes.spells_tokens u (List.mem_append_left _ hu), hblank, hbehind, ?_⟩
  exact read_append_of_runs source (hs.runs_collecting hstarts hdepth) more

/-- **The last statement of a block**, which the end of the block ends. -/
theorem Collects.covers_last (h : Collects source s run depth more body blank behind)
    (hrun : run ≠ []) (hends : (s.collecting run depth).Ends false none s₁)
    (hmore : ∀ u ∈ more.head?, u.kind = .braceClose) :
    ∃ f s' us rest, Covers source s (run ++ more) (body ++ (blank ++ behind)) f s' us rest := by
  have hbuffer : (s.collecting run depth).buffer ≠ [] := by simpa [collecting] using hrun
  have hsame : (s.collecting run depth).read source more = s₁.read source more := by
    cases more with
    | nil => exact read_nil_of_ends source hbuffer hends
    | cons u us => exact read_braceClose_of_ends source hbuffer hends (hmore u rfl) us
  obtain ⟨last, hbehind⟩ := h.lexes
  obtain ⟨n, hchildren, hcontent, hblock, hwritten, hspaced, hready⟩ :=
    h.ready.exists_leaf h.stands h.stops h.spells hends
  have hends' := Token.endsBlock_append h.blank (hbehind.head_eq_brace hmore)
  refine ⟨_, s₁, more, behind, (hready.covers_nil hbehind hmore).prepend
    (h.read.trans hsame) hends.frame.2.2.1 hends.frame.2.2.2 hchildren (by simp)
    (forall_preorder_single ⟨hwritten, hspaced⟩) ?_⟩
  exact .last h.stands hends' hcontent hblock
    ((Reads.nil behind).gap_append fun c hc => by simp [Token.isGap, h.blank c hc])

/-- **A statement that a semicolon ends.** -/
theorem Collects.covers_closed (h : Collects source s run 0 (u :: us) body blank behind)
    (hrun : run ≠ []) (hkind : u.kind = .semicolon)
    (ih : CoveredBelow source r (run ++ u :: us).length)
    (hread : s.read source (run ++ u :: us) = .ok r) :
    ∃ f s' vs rest, Covers source s (run ++ u :: us) (body ++ (blank ++ behind)) f s' vs rest := by
  have hbuffer : (s.collecting run 0).buffer ≠ [] := by simpa [collecting] using hrun
  obtain ⟨s₁, hstep, hread₁⟩ := exists_steps_of_read (h.read.symm.trans hread)
  have hends := hstep.ends_of_semicolon hbuffer hkind rfl
  obtain ⟨last, hbehind⟩ := h.lexes
  obtain ⟨cs, rfl, hspell, -, hrest⟩ := hbehind.of_cons
  obtain ⟨n, hchildren, hcontent, hblock, hwritten, hspaced, hready⟩ :=
    h.ready.exists_leaf h.stands h.stops h.spells hends
  have hlength : us.length < (run ++ u :: us).length := by
    rw [List.length_append, List.length_cons]
    omega
  obtain ⟨f, s', vs, rest, hcovers⟩ := ih hlength hready
    (hrest (by simp [hkind]) (by simp [hkind])) hread₁
  refine ⟨_, s', vs, rest, hcovers.prepend (h.read.trans (read_cons_of_steps source hstep us))
    hends.frame.2.2.1 hends.frame.2.2.2 hchildren hlength.le
    (forall_preorder_single ⟨hwritten, hspaced⟩) ?_⟩
  have hstands := h.stands
  rw [hkind] at hspell
  rw [show u.text.toList = [';'] from hspell] at hstands ⊢
  exact .closed hstands h.blank hcontent hblock hcovers.reads

/-- **A statement that opens a block.**  What the block holds is covered first, up to its end, and then
what stands behind the block. -/
theorem Collects.covers_block (h : Collects source s run depth (u :: us) body blank behind)
    (hkind : u.kind = .braceOpen) (ih : CoveredBelow source r (run ++ u :: us).length)
    (hread : s.read source (run ++ u :: us) = .ok r) :
    ∃ f s' vs rest, Covers source s (run ++ u :: us) (body ++ (blank ++ behind)) f s' vs rest := by
  obtain ⟨s₁, hstep, hread₁⟩ := exists_steps_of_read (h.read.symm.trans hread)
  obtain rfl := hstep.eq_openBlock hkind
  obtain ⟨last, hbehind⟩ := h.lexes
  obtain ⟨cs, rfl, hspell, -, hrest⟩ := hbehind.of_cons
  have hlength : us.length < (run ++ u :: us).length := by
    rw [List.length_append, List.length_cons]
    omega
  obtain ⟨start, span, hopen⟩ := (s.collecting run depth).openBlock_eq u
  have hready : ((s.collecting run depth).openBlock u).Ready := by
    rw [hopen]
    exact ⟨⟨rfl, rfl⟩, isGapText_empty⟩
  obtain ⟨children, s₂, vs, rest, hinner⟩ := ih hlength hready
    (hrest (by simp [hkind]) (by simp [hkind])) hread₁
  have hread₂ := hinner.read.symm.trans hread₁
  have houter₂ : s₂.outer = s.block :: s.outer := by
    rw [hinner.outer, hopen]
    rfl
  have hchildren₂ : Forest.ofLatestFirst s₂.block.children = children := by
    rw [hinner.children, hopen]
    rfl
  cases vs with
  | nil =>
    have hclosed := outer_eq_nil_of_read_nil hread₂ hinner.ready.buffer
    rw [houter₂] at hclosed
    cases hclosed
  | cons w ws =>
    have hbrace : w.kind = .braceClose := hinner.brace w rfl
    obtain ⟨s₃, hclose, hread₃⟩ := exists_steps_of_read hread₂
    have hreadAll := (h.read.trans (read_cons_of_steps source hstep us)).trans
      (hinner.read.trans (read_cons_of_steps source hclose ws))
    obtain ⟨-, rfl⟩ := hclose.eq_close hinner.ready.buffer hbrace
    obtain ⟨last₂, hlexes₂⟩ := hinner.lexes
    obtain ⟨cs₃, rfl, hspell₃, -, hlexes₃⟩ := hlexes₂.of_cons
    obtain ⟨n, hchildren, hcontent, hblock, hwritten, hspaced, houter₃, hnode₃⟩ :=
      h.ready.exists_block h.stands h.stops h.spells hinner.outer hinner.node hinner.ready.pending
        w.stop
    have hready₃ : (s₂.close w.stop).Ready := by
      rw [close_eq houter₂]
      exact ⟨⟨hinner.ready.buffer, hinner.ready.depth⟩, isGapText_empty⟩
    have hshorter : ws.length < (run ++ u :: us).length :=
      (Nat.lt_of_succ_le hinner.shorter).trans hlength
    obtain ⟨f, s', xs, rest', hcovers⟩ := ih hshorter hready₃
      (hlexes₃ (by simp [hbrace]) (by simp [hbrace])) hread₃
    rw [hchildren₂] at hchildren
    refine ⟨_, s', xs, rest', hcovers.prepend hreadAll houter₃ hnode₃ hchildren hshorter.le ?_ ?_⟩
    · intro m hm
      simp only [Forest.preorder, List.append_nil, List.mem_cons] at hm
      rcases hm with rfl | hm
      · exact ⟨hwritten, hspaced⟩
      · exact hinner.known m hm
    · have hstands := h.stands
      have hreads := hinner.reads
      rw [hkind] at hspell
      rw [hbrace] at hspell₃
      rw [show u.text.toList = ['\x7b'] from hspell] at hstands ⊢
      rw [show w.text.toList = ['\x7d'] from hspell₃] at hreads
      exact .block hstands h.blank hcontent hblock hreads hcovers.reads

end Cases

/-- **What a strict parse reads is in the grammar**, up to the end of the block. -/
theorem exists_covers {r : Tree Node} {last : Mode} (hs : s.Ready)
    (hlexes : Lexes .plain text [] (ts.map Token.lexeme) last) (hread : s.read source ts = .ok r) :
    ∃ f s' us rest, Covers source s ts text f s' us rest := by
  suffices hall : ∀ size, CoveredBelow source r size from
    hall (ts.length + 1) (Nat.lt_succ_self _) hs hlexes hread
  intro size
  induction size with
  | zero => exact fun hlt => absurd hlt (Nat.not_lt_zero _)
  | succ size ih =>
    intro s ts text last hlt hs hlexes hread
    replace ih : CoveredBelow source r ts.length := fun hlt' =>
      ih (hlt'.trans_le (Nat.lt_succ_iff.mp hlt))
    cases ts with
    | nil => exact ⟨.nil, s, [], text, hs.covers_nil hlexes (by simp)⟩
    | cons t ts =>
      by_cases hgap : t.kind = .space ∨ t.kind = .semicolon
      · exact hs.covers_gap hgap ih hlexes hread
      by_cases hcomment : t.kind = .comment
      · exact hs.covers_comment hcomment ih hlexes hread
      by_cases hclose : t.kind = .braceClose
      · exact ⟨.nil, s, t :: ts, text, hs.covers_nil hlexes (by simpa using hclose)⟩
      obtain ⟨run, more, depth, body, blank, behind, hts, rfl, hmore, hcollects⟩ :=
        hs.exists_collects hlexes (fun hspace => hgap (.inl hspace)) hcomment
      have hrun : run ≠ [] ∨ t.kind = .braceOpen ∧ more = t :: ts := by
        cases run with
        | cons => exact .inl (List.cons_ne_nil _ _)
        | nil =>
          obtain rfl : t :: ts = more := hts
          rcases Token.Kind.continuesStatement_eq_false_iff.mp (hmore t rfl) with
            ⟨hkind, -⟩ | hkind | hkind
          · exact absurd (.inr hkind) hgap
          · exact .inr ⟨hkind, rfl⟩
          · exact absurd hkind hclose
      rw [hts] at ih hread ⊢
      cases more with
      | nil =>
        have hrun := hrun.resolve_right fun h => by cases h.2
        obtain ⟨s₁, hends⟩ := exists_ends_of_read_nil (hcollects.read.symm.trans hread)
          (by simpa [collecting] using hrun)
        exact hcollects.covers_last hrun hends (by simp)
      | cons u us =>
        have hrun (hopen : u.kind ≠ .braceOpen) : run ≠ [] :=
          hrun.resolve_right fun h => hopen ((List.cons.inj h.2).1 ▸ h.1)
        rcases Token.Kind.continuesStatement_eq_false_iff.mp (hmore u rfl) with
          ⟨hkind, rfl⟩ | hkind | hkind
        · exact hcollects.covers_closed (hrun (by simp [hkind])) hkind ih hread
        · exact hcollects.covers_block hkind ih hread
        · have hrun := hrun (by simp [hkind])
          obtain ⟨s₁, hstep, -⟩ := exists_steps_of_read (hcollects.read.symm.trans hread)
          obtain ⟨s₂, hends⟩ := hstep.exists_ends_of_braceClose
            (by simpa [collecting] using hrun) hkind
          exact hcollects.covers_last hrun hends (by simpa using hkind)

end Parse.State

/-- **A text that is accepted is in the grammar**, and all its nodes are written and spaced. -/
theorem reads_of_parse {source : Source} {t : Tree Node} (h : parse source false = .ok t) :
    Reads source.text.toList (t.children.map Node.content) [] ∧ t.value.content = .root ∧
      (∀ x ∈ t.value.raws.after, IsGapText x) ∧
        ∀ n ∈ t.children.preorder, n.Written ∧ n.Spaced := by
  obtain ⟨hfailure, -⟩ := parse_eq_ok_iff.mp h
  rw [parse_eq_read hfailure] at h
  obtain ⟨last, hlexes⟩ := (Reader.ofSource_fresh source false).lexes_of_drain rfl hfailure
  have hready : Parse.State.start.Ready := ⟨Parse.State.start_idle, isGapText_empty⟩
  obtain ⟨f, s, us, rest, hcovers⟩ := Parse.State.exists_covers hready hlexes h
  have hread := hcovers.read.symm.trans h
  cases us with
  | cons u us =>
    obtain ⟨s', hstep, -⟩ := Parse.State.exists_steps_of_read hread
    exact absurd hcovers.outer (hstep.eq_close hcovers.ready.buffer (hcovers.brace u rfl)).1
  | nil =>
    obtain ⟨last', hrest⟩ := hcovers.lexes
    cases hrest
    obtain ⟨s', hlast, -, rfl⟩ := Parse.State.finish_eq_ok_iff.mp
      (show s.finish source false = .ok t from hread)
    cases hlast with
    | statement hne => exact absurd hcovers.ready.buffer hne
    | nothing =>
      have hchildren : Forest.ofLatestFirst s.block.children = f := by
        rw [hcovers.children]
        rfl
      have hcontent := congrArg Node.content hcovers.node
      have hpending := hcovers.ready.pending
      rw [Parse.State.closeAll, hcovers.outer]
      simp only [Parse.State.start, List.foldl_nil, Parse.State.tree, Parse.State.ended,
        hchildren]
      exact ⟨hcovers.reads, hcontent, by simpa using hpending, hcovers.known⟩

end LosslessCss
