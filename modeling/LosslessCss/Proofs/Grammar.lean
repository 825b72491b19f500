import LosslessCss.Proofs.Lookahead
import LosslessCss.Proofs.StatementParts
import LosslessCss.Proofs.Transitions

/-!
# A grammar of style sheets

What a strict parse accepts can be said without a state: a block is a sequence of gaps, comments,
statements and blocks.  `Reads text f rest` says that `text` up to `rest` is such a sequence, and
that `f` is what it contains.  The grammar knows nothing of places and of the gaps that a parse
records, so it is the right notion for asking whether a text that was printed is read as what it was
printed from.

A run of tokens is a statement or the head of a block if each of its tokens goes on with it
(`Statement.Stands`) and if it can be taken apart (`Content.ReadFrom`).  Both depend on the lexemes
of the run only, so a run that is read again somewhere else is read as the same content.

## Main Definitions

* `Statement.Stands` : a text is read as a run of tokens that go on with each other
* `Content.ReadFrom` : what a run of tokens means
* `Reads` : the grammar

## Main Statements

* `Content.ReadFrom.congr` : places do not matter
* `Content.ReadFrom.unique` : a run means one thing
-/

namespace LosslessCss

/-! ### Places do not matter -/

/-- The token of a lexeme at no place in particular. -/
def Lexeme.token (l : Lexeme) : Token := ⟨l.kind, String.ofList l.text, ⟨0, .start, .start⟩⟩

@[simp]
theorem Lexeme.lexeme_token (l : Lexeme) : l.token.lexeme = l := by
  simp [Token.lexeme, token]

theorem dropTrailing_map {α β : Type} (f : α → β) (p : β → Bool) (l : List α) :
    dropTrailing p (l.map f) = (dropTrailing (p ∘ f) l).map f := by
  simp [dropTrailing, ← List.map_reverse, List.dropWhile_map]

theorem takeTrailing_map {α β : Type} (f : α → β) (p : β → Bool) (l : List α) :
    takeTrailing p (l.map f) = (takeTrailing (p ∘ f) l).map f := by
  simp [takeTrailing, ← List.map_reverse, List.takeWhile_map]

namespace Token

/-- The token without its place. -/
private def bare (t : Token) : Token := t.lexeme.token

@[simp]
private theorem bare_kind (t : Token) : t.bare.kind = t.kind := rfl

@[simp]
private theorem bare_text (t : Token) : t.bare.text = t.text := by
  simp [bare, Lexeme.token, lexeme]

private theorem concat_map_bare (ts : List Token) : concat (ts.map bare) = concat ts := by
  induction ts with
  | nil => rfl
  | cons t ts ih => simp [ih]

private theorem map_bare_congr {ts us : List Token} (h : ts.map lexeme = us.map lexeme) :
    ts.map bare = us.map bare := by
  have hmap := congrArg (List.map Lexeme.token) h
  rwa [List.map_map, List.map_map] at hmap

/-- Runs with the same lexemes have the same text. -/
theorem concat_congr {ts us : List Token} (h : ts.map lexeme = us.map lexeme) :
    concat ts = concat us := by
  rw [← concat_map_bare ts, map_bare_congr h, concat_map_bare]

/-- Runs with the same lexemes have the same kinds. -/
theorem map_kind_congr {ts us : List Token} (h : ts.map lexeme = us.map lexeme) :
    ts.map kind = us.map kind := by
  have hmap := congrArg (List.map Lexeme.kind) h
  rwa [List.map_map, List.map_map] at hmap

end Token

private theorem AtRuleHead.ofTokens_map_bare (ts : List Token) :
    ofTokens (ts.map Token.bare) = ofTokens ts := by
  cases ts with
  | nil => rfl
  | cons t ts =>
    have hspace : Token.isSpace ∘ Token.bare = Token.isSpace := rfl
    simp [ofTokens, List.takeWhile_map, List.dropWhile_map, hspace, Token.concat_map_bare]

private theorem DeclarationParts.ofTokens_map_bare (ts : List Token) :
    ofTokens (ts.map Token.bare) = ofTokens ts := by
  have hspace : Token.isSpace ∘ Token.bare = Token.isSpace := rfl
  have htrivia : Token.isTrivia ∘ Token.bare = Token.isTrivia := rfl
  have hcolon : (fun t : Token => t.kind != .colon) ∘ Token.bare = fun t => t.kind != .colon := rfl
  unfold ofTokens Statement.content Statement.gap
  simp only [List.takeWhile_map, List.dropWhile_map, dropTrailing_map, takeTrailing_map, hspace,
    hcolon, List.isEmpty_map, Token.concat_map_bare]
  cases ts.dropWhile fun t => t.kind != .colon with
  | nil => rfl
  | cons colon rest =>
    simp only [List.map_cons, List.takeWhile_map, List.dropWhile_map, htrivia,
      Token.concat_map_bare, Token.bare_text]

/-- The head of an at-rule depends on the lexemes of its run. -/
theorem AtRuleHead.ofTokens_congr {ts us : List Token}
    (h : ts.map Token.lexeme = us.map Token.lexeme) : ofTokens ts = ofTokens us := by
  rw [← ofTokens_map_bare ts, Token.map_bare_congr h, ofTokens_map_bare]

/-- The parts of a declaration depend on the lexemes of its run. -/
theorem DeclarationParts.ofTokens_congr {ts us : List Token}
    (h : ts.map Token.lexeme = us.map Token.lexeme) : ofTokens ts = ofTokens us := by
  rw [← ofTokens_map_bare ts, Token.map_bare_congr h, ofTokens_map_bare]

/-! ### What a run means -/

/-- **What a run of tokens means**: a rule or a declaration, or an at-rule if it starts with an
at-word.  Whether the at-rule has a body is not decided by the run. -/
inductive Content.ReadFrom (run : List Token) : Content → Prop
  | rule (hfirst : ∀ t ∈ run.head?, t.kind ≠ .atWord) : ReadFrom run (.rule (Token.concat run))
  | atRule {first : Token} (hfirst : run.head? = some first) (hkind : first.kind = .atWord)
      (hasBody : Bool) :
      ReadFrom run
        (.atRule (AtRuleHead.ofTokens run).name (AtRuleHead.ofTokens run).params hasBody)
  | declaration {parts : DeclarationParts} (hfirst : ∀ t ∈ run.head?, t.kind ≠ .atWord)
      (hparts : DeclarationParts.ofTokens run = .ok parts) :
      ReadFrom run (.declaration parts.property parts.value parts.important.isSome)

namespace Content.ReadFrom

variable {run us : List Token} {c c' : Content}

/-- **Places do not matter** for what a run means. -/
theorem congr (h : c.ReadFrom run) (hus : us.map Token.lexeme = run.map Token.lexeme) :
    c.ReadFrom us := by
  have hhead : us.head?.map Token.kind = run.head?.map Token.kind := by
    rw [← List.head?_map, ← List.head?_map, Token.map_kind_congr hus]
  have hother (hfirst : ∀ t ∈ run.head?, t.kind ≠ .atWord) :
      ∀ t ∈ us.head?, t.kind ≠ .atWord := by
    intro t ht hkind
    rw [Option.mem_def.mp ht, Option.map_some, hkind] at hhead
    obtain ⟨u, hu, hkind'⟩ := Option.map_eq_some_iff.mp hhead.symm
    exact hfirst u hu hkind'
  cases h with
  | rule hfirst =>
    rw [← Token.concat_congr hus]
    exact .rule (hother hfirst)
  | atRule hfirst hkind hasBody =>
    rw [← AtRuleHead.ofTokens_congr hus]
    rw [hfirst, Option.map_some, hkind] at hhead
    obtain ⟨u, hu, hkind'⟩ := Option.map_eq_some_iff.mp hhead
    exact .atRule hu hkind' hasBody
  | declaration hfirst hparts =>
    exact .declaration (hother hfirst) ((DeclarationParts.ofTokens_congr hus).trans hparts)

/-- **A run means one thing**, once it is known whether a block follows. -/
theorem unique (h : c.ReadFrom run) (h' : c'.ReadFrom run)
    (hblock : c.opensBlock = c'.opensBlock) : c = c' := by
  cases h with
  | rule hfirst =>
    cases h' with
    | rule => rfl
    | atRule hhead hkind => exact absurd hkind (hfirst _ hhead)
    | declaration => cases hblock
  | atRule hhead hkind =>
    cases h' with
    | rule hfirst => exact absurd hkind (hfirst _ hhead)
    | atRule => exact congrArg (Content.atRule _ _) hblock
    | declaration hfirst => exact absurd hkind (hfirst _ hhead)
  | declaration hfirst hparts =>
    cases h' with
    | rule => cases hblock
    | atRule hhead hkind => exact absurd hkind (hfirst _ hhead)
    | declaration _ hparts' =>
      cases hparts.symm.trans hparts'
      rfl

/-- A run of no tokens is the head of a block only. -/
theorem ne_nil (h : c.ReadFrom run) (hblock : c.opensBlock = false) : run ≠ [] := by
  rintro rfl
  cases h with
  | rule => cases hblock
  | atRule hfirst => cases hfirst
  | declaration _ hparts => cases hparts

/-- A run means no comment. -/
theorem isComment_eq_false (h : c.ReadFrom run) : c.isComment = false := by
  cases h <;> rfl

end Content.ReadFrom

/-- The head of a block means what its run means. -/
theorem Statement.block_readFrom (run : List Token) :
    (block run).content.ReadFrom (content run) := by
  unfold block
  split
  · next hat =>
    obtain ⟨first, hfirst, hkind⟩ := (Option.any_eq_true _ _).mp hat
    exact .atRule hfirst (by simpa using hkind) true
  · next hat =>
    refine .rule fun t ht hkind => hat ?_
    rw [Option.mem_def.mp ht, Option.any_some, hkind]
    rfl

/-! ### Runs that stand in a text -/

/-- The number of open parentheses and brackets behind a token of the kind. -/
def Token.Kind.depthBehind (depth : Nat) : Kind → Nat
  | .parenOpen | .bracketOpen => depth + 1
  | .parenClose | .bracketClose => depth - 1
  | _ => depth

namespace Statement

/-- **The number of open parentheses and brackets behind a run**, if each of its tokens goes on with
a statement. -/
def depth? (depth : Nat) : List Token.Kind → Option Nat
  | [] => some depth
  | k :: ks => if k.continuesStatement depth then depth? (k.depthBehind depth) ks else none

theorem depth?_append (depth : Nat) (ks ks' : List Token.Kind) :
    depth? depth (ks ++ ks') = (depth? depth ks).bind (depth? · ks') := by
  induction ks generalizing depth with
  | nil => rfl
  | cons k ks ih =>
    rw [List.cons_append, depth?, depth?]
    split
    · exact ih _
    · rfl

/-- **A text is read as a run** that is a statement or the head of a block: it starts with a token
that starts a statement, all others go on with it, and it does not end in blank space.  The text
ahead ends it. -/
structure Stands (run : List Token) (depth : Nat) (text ahead : List Char) : Prop where
  starts : ∀ t ∈ run.head?, t.kind.startsStatement = true
  depth : depth? 0 (run.map Token.kind) = some depth
  ends : ∀ t ∈ run.getLast?, t.isSpace = false
  lexes : ∃ last, last ≠ .address ∧
    Lexes .plain text ahead (run.map Token.lexeme) last

namespace Stands

variable {run : List Token} {depth : Nat} {text ahead : List Char}

/-- The text is the text of the run. -/
theorem text_eq (h : Stands run depth text ahead) : (Token.concat run).toList = text := by
  obtain ⟨last, -, hlexes⟩ := h.lexes
  rw [Token.toList_concat]
  exact hlexes.concat_eq

/-- Places do not matter. -/
theorem congr {us : List Token} (h : Stands run depth text ahead)
    (hus : us.map Token.lexeme = run.map Token.lexeme) : Stands us depth text ahead := by
  have hkinds := Token.map_kind_congr hus
  refine ⟨fun t ht => ?_, by rw [hkinds]; exact h.depth, fun t ht => ?_, by rw [hus]; exact h.lexes⟩
  · have hhead := congrArg List.head? hkinds
    rw [List.head?_map, List.head?_map, Option.mem_def.mp ht, Option.map_some] at hhead
    obtain ⟨u, hu, hkind⟩ := Option.map_eq_some_iff.mp hhead.symm
    rw [← hkind]
    exact h.starts u hu
  · have hlast := congrArg List.getLast? hkinds
    rw [List.getLast?_map, List.getLast?_map, Option.mem_def.mp ht, Option.map_some] at hlast
    obtain ⟨u, hu, hkind⟩ := Option.map_eq_some_iff.mp hlast.symm
    rw [Token.isSpace, ← hkind]
    exact h.ends u hu

/-- The run ends in no blank space. -/
theorem content_eq (h : Stands run depth text ahead) : content run = run :=
  dropTrailing_eq_self_iff.mpr h.ends

/-- Blank space behind the run is no part of it. -/
theorem content_append_gap (h : Stands run depth text ahead) {gap : List Token}
    (hgap : ∀ t ∈ gap, t.isSpace = true) : content (run ++ gap) = run := by
  rw [content, dropTrailing_append_of_all _ hgap]
  exact h.content_eq

/-- Blank space behind the run is the gap. -/
theorem gap_append_gap (h : Stands run depth text ahead) {gap : List Token}
    (hgap : ∀ t ∈ gap, t.isSpace = true) : Statement.gap (run ++ gap) = gap := by
  have hboth := dropTrailing_append_takeTrailing Token.isSpace (run ++ gap)
  rw [show dropTrailing Token.isSpace (run ++ gap) = run from h.content_append_gap hgap] at hboth
  exact List.append_cancel_left hboth

end Stands

end Statement

/-! ### The grammar -/

/-- Blank space and semicolons are what stands between statements. -/
def Token.isGap (c : Char) : Bool := isBlank c || c == ';'

/-- A block ends here, or the text does, perhaps behind some blank space. -/
def Token.EndsBlock (cs : List Char) : Prop :=
  ∀ c ∈ (cs.dropWhile isBlank).head?, c = '\x7d'

/-- **The grammar of style sheets.**  The text up to `rest` is a sequence of gaps, comments,
statements and blocks, and the forest is what it contains.  A statement is ended by a semicolon
outside all parentheses and brackets, or by the end of the block around it. -/
inductive Reads : List Char → Forest Content → List Char → Prop
  | nil (rest : List Char) : Reads rest .nil rest
  | gap {c : Char} {cs rest : List Char} {f : Forest Content} (hgap : Token.isGap c = true)
      (hrest : Reads cs f rest) : Reads (c :: cs) f rest
  | comment {inner cs rest : List Char} {f : Forest Content}
      (hinner : Token.commentTail (inner ++ ['*', '/']) = some (inner.length + 2))
      (hrest : Reads cs f rest) :
      Reads ('/' :: '*' :: (inner ++ ['*', '/'] ++ cs))
        (.cons (.comment (CommentParts.ofText
          (String.ofList ('/' :: '*' :: (inner ++ ['*', '/'])))).text) .nil f) rest
  | closed {run : List Token} {text gap cs rest : List Char} {c : Content} {f : Forest Content}
      (hstands : Statement.Stands run 0 text (gap ++ ';' :: cs))
      (hgap : ∀ c ∈ gap, Token.isBlank c = true) (hcontent : c.ReadFrom run)
      (hblock : c.opensBlock = false) (hrest : Reads cs f rest) :
      Reads (text ++ (gap ++ ';' :: cs)) (.cons c .nil f) rest
  | last {run : List Token} {depth : Nat} {text cs rest : List Char} {c : Content}
      {f : Forest Content} (hstands : Statement.Stands run depth text cs)
      (hends : Token.EndsBlock cs) (hcontent : c.ReadFrom run) (hblock : c.opensBlock = false)
      (hrest : Reads cs f rest) : Reads (text ++ cs) (.cons c .nil f) rest
  | block {run : List Token} {depth : Nat} {text gap inner cs rest : List Char} {c : Content}
      {children f : Forest Content}
      (hstands : Statement.Stands run depth text (gap ++ '\x7b' :: inner))
      (hgap : ∀ c ∈ gap, Token.isBlank c = true) (hcontent : c.ReadFrom run)
      (hblock : c.opensBlock = true) (hinner : Reads inner children ('\x7d' :: cs))
      (hrest : Reads cs f rest) :
      Reads (text ++ (gap ++ '\x7b' :: inner)) (.cons c children f) rest

end LosslessCss
